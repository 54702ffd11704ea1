import ThinkingUnderstanding.Semantics.Forgetting
import ThinkingUnderstanding.Spike.SpikeGenerator

/-!
# After a rotation that has failed

When the current file is outdated, `validateFile` closes its generator and advances the date of the
writer before it does what can fail: it reads the directory and, for a second time, the interval,
creates the file and creates the generator. The variables of the action stay as they are at the
exception, and the actor goes on with them. So the next application may find a generator that is
closed, or no generator although a date says that there is a current file.

What a closed generator does with a token is a parameter: it throws, or drops the token. The end of
an array is one of those that it does not take, as no array is open.

## Main definitions

* `Failing.Surroundings` — what a call of `validateFile` finds: the clock, the properties, the disk
* `Failing.validateFile`, `Failing.apply` — the methods, with every exception
* `Failing.Recovered` — an application ends normally, with its data in an open array
* `Failing.Works` — no cause of a failure is there

## Main results

* `Failing.forget_apply` — when nothing fails, the method is that of the generator
* `Failing.sound_of_reachable` — in every state reached, an open generator has an open array
* `Failing.runAll_of_closed` — a closed generator is never replaced
* `Failing.recovered_iff` — when the next application recovers
-/

namespace ThinkingUnderstanding.SpikeGenerator.Failing

open Semantics

/-- A `JsonGenerator`, which writes to a file until it is closed. -/
structure Generator where
  file : SpikeFile
  isClosed : Bool := false

/-- The variables of the action, and the files. -/
structure ActionState where
  jsonGenerator : Option Generator := none
  creationDate : ℤ := Long.minValue
  files : SpikeFile → Option (List Token) := fun _ => none

/-- What a call finds: the clock, the properties as they are read one after another, and whether
the file exists, can be created and can be opened. A property for the interval that is not a number
is `some none`. -/
structure Surroundings where
  clock : Clock
  spikeInterval : Option (Option ℤ)
  spikeDirectory : Option String
  spikeIntervalOfName : Option (Option ℤ)
  fileExists : Bool
  createsFile : Bool
  createsGenerator : Bool

/-- A method of the action. -/
abbrev FailingProgram (α : Type) := EStateM String ActionState α

/-- The tokens are put at the end of a file. -/
def ActionState.append (s : ActionState) (file : SpikeFile) (tokens : List Token) : ActionState :=
  { s with files := Function.update s.files file ((s.files file).map (· ++ tokens)) }

/-- `interval()`, when it is a number. -/
def interval : Option (Option ℤ) → Option ℤ
  | none => some 10000
  | some property => property

/-- `interval()`. -/
def readInterval (property : Option (Option ℤ)) : FailingProgram ℤ :=
  match interval property with
  | some interval => pure interval
  | none => throw "java.lang.NumberFormatException"

/-- `spikeDirectory()`. -/
def readDirectory (property : Option String) : FailingProgram String :=
  match property with
  | some directory => pure directory
  | none => throw "Spike Directory not specified. Use -DspikeDirectory=/path/to/directory"

section

variable (refuses : Token → Option String)

/-- A call of the generator that writes one token. -/
def write (token : Token) : FailingProgram Unit := do
  match (← get).jsonGenerator with
  | none => throw "java.lang.NullPointerException"
  | some generator =>
      if generator.isClosed then
        match refuses token with
        | some message => throw message
        | none => pure ()
      else modify fun s => s.append generator.file [token]

/-- `closeFile()`. -/
def closeFile : FailingProgram Unit := do
  write refuses .endArray
  modify fun s => { s with
    jsonGenerator := s.jsonGenerator.map fun generator => { generator with isClosed := true } }

/-- `if (!spikeFile.exists()) spikeFile.createNewFile()`. -/
def createNewFile (around : Surroundings) (spikeFile : SpikeFile) : FailingProgram Unit := do
  if around.fileExists || ((← get).files spikeFile).isSome then pure ()
  else if around.createsFile then
    modify fun s => { s with files := Function.update s.files spikeFile (some []) }
  else throw "java.io.IOException"

/-- `factory.createGenerator(spikeFile, JsonEncoding.UTF8)`, which empties the file. -/
def createGenerator (around : Surroundings) (spikeFile : SpikeFile) : FailingProgram Unit :=
  if around.createsGenerator then
    modify fun s => { s with
      jsonGenerator := some { file := spikeFile }
      files := Function.update s.files spikeFile (some []) }
  else throw "java.io.FileNotFoundException"

/-- The second half of `validateFile()`. -/
def createFile (around : Surroundings) : FailingProgram Unit := do
  modify fun s => { s with creationDate := around.clock.created }
  let directory ← readDirectory around.spikeDirectory
  let interval ← readInterval around.spikeIntervalOfName
  let spikeFile : SpikeFile :=
    { directory
      creationDate := around.clock.created
      endDate := Long.add around.clock.created interval }
  createNewFile around spikeFile
  createGenerator around spikeFile
  write refuses .startArray

/-- `validateFile()`. -/
def validateFile (around : Surroundings) : FailingProgram Unit := do
  let s ← get
  let interval ← readInterval around.spikeInterval
  if Long.add s.creationDate interval < around.clock.checked then
    if s.jsonGenerator.isSome then closeFile refuses
    createFile refuses around

/-- The body of the loop of `apply`. -/
def writeRecord (r : SpikeRecord) : FailingProgram Unit := do
  write refuses .startObject
  write refuses (.stringField "family" r.family)
  write refuses (.numberField "time" r.time)
  write refuses (.stringField "data" r.data)
  write refuses .endObject

/-- `SpikeGeneratorWay2Think.apply`. -/
def apply (around : Surroundings) (container : Option RoboticDataContainer) :
    FailingProgram Unit :=
  match container with
  | some container =>
      match channelMapping container.channel with
      | some family => do
          validateFile refuses around
          forM (recordsOf family container) (writeRecord refuses)
      | none => pure ()
  | none => pure ()

end

/-- An application ends normally, and its data is in an array of records that is open. -/
def Recovered (records : List SpikeRecord) (result : EStateM.Result String ActionState Unit) :
    Prop :=
  ∃ t, result = .ok () t ∧ (records ≠ [] → ∃ file before, t.jsonGenerator = some { file } ∧
    t.files file = some (.startArray :: (before ++ records).flatMap SpikeRecord.tokens))

/-- Every cause of a failure is absent. -/
structure Works (around : Surroundings) : Prop where
  interval : (interval around.spikeInterval).isSome
  directory : around.spikeDirectory.isSome
  intervalOfName : (Failing.interval around.spikeIntervalOfName).isSome
  file : around.createsFile = true
  generator : around.createsGenerator = true

/-- The interval is a number, and has passed since the date. -/
def Outdated (around : Surroundings) (date : ℤ) : Prop :=
  ∃ interval, Failing.interval around.spikeInterval = some interval ∧
    Long.add date interval < around.clock.checked

/-- An open generator has an array of records that is open. -/
def Sound (s : ActionState) : Prop :=
  ∀ file, s.jsonGenerator = some { file } →
    ∃ records : List SpikeRecord,
      s.files file = some (.startArray :: records.flatMap SpikeRecord.tokens)

/-- The generator is closed. -/
def Closed (s : ActionState) : Prop :=
  ∃ file, s.jsonGenerator = some { file, isClosed := true }

instance (s : ActionState) : Decidable (Closed s) :=
  match generator : s.jsonGenerator with
  | none => isFalse fun ⟨_, present⟩ => nomatch generator.symm.trans present
  | some ⟨_, false⟩ => isFalse fun ⟨_, present⟩ => nomatch generator.symm.trans present
  | some ⟨file, true⟩ => isTrue ⟨file, generator⟩

/-- The date from which the next application counts the interval after a failure. -/
def dateAfter (around : Surroundings) (s : ActionState) : ℤ :=
  if interval around.spikeInterval = none ∨ Closed s then s.creationDate else around.clock.created

variable {refuses : Token → Option String} {around : Surroundings} {s t : ActionState}
  {container : Option RoboticDataContainer} {file : SpikeFile} {records : List SpikeRecord}

/-! ### Tokens and records -/

theorem run_readInterval {property : Option (Option ℤ)} {value : ℤ}
    (number : interval property = some value) :
    (readInterval property).run s = .ok value s := by
  rw [readInterval, number]
  rfl

theorem run_write (opened : s.jsonGenerator = some { file }) (token : Token) :
    (write refuses token).run s = .ok () (s.append file [token]) := by
  simp only [write, EStateM.run_bind, EStateM.run_get, opened]
  rfl

/-- A closed generator changes nothing, whether it throws or not. -/
theorem finalState_write_of_closed (closed : Closed s) (token : Token) :
    finalState ((write refuses token).run s) = s := by
  obtain ⟨file, present⟩ := closed
  simp only [write, EStateM.run_bind, EStateM.run_get, present, if_true]
  cases refuses token <;> rfl

/-- Nothing changes along a sequence of programs that change nothing. -/
theorem finalState_bind_of_unchanged {p q : FailingProgram Unit}
    (first : finalState (p.run s) = s) (second : finalState (q.run s) = s) :
    finalState ((p >>= fun _ => q).run s) = s := by
  refine holds_bind (P := fun t => t = s) (fun e m run => ?_) fun a m run => ?_
  · rw [run] at first
    exact first
  · rw [run] at first
    obtain rfl : m = s := first
    exact second

theorem finalState_writeRecords_of_closed (closed : Closed s) (records : List SpikeRecord) :
    finalState ((forM records (writeRecord refuses)).run s) = s := by
  have token : ∀ token, finalState ((write refuses token).run s) = s :=
    finalState_write_of_closed closed
  have one : ∀ r, finalState ((writeRecord refuses r).run s) = s := by
    intro r
    exact finalState_bind_of_unchanged (token _) <| finalState_bind_of_unchanged (token _) <|
      finalState_bind_of_unchanged (token _) <| finalState_bind_of_unchanged (token _) (token _)
  induction records with
  | nil => rfl
  | cons r rest ih =>
    rw [List.forM_cons]
    exact finalState_bind_of_unchanged (one r) ih

@[simp] theorem ActionState.append_jsonGenerator (s : ActionState) (file : SpikeFile)
    (tokens : List Token) : (s.append file tokens).jsonGenerator = s.jsonGenerator := rfl

@[simp] theorem ActionState.append_creationDate (s : ActionState) (file : SpikeFile)
    (tokens : List Token) : (s.append file tokens).creationDate = s.creationDate := rfl

@[simp] theorem ActionState.append_append (s : ActionState) (file : SpikeFile)
    (tokens more : List Token) :
    (s.append file tokens).append file more = s.append file (tokens ++ more) := by
  simp [ActionState.append, Function.comp_def]

@[simp] theorem ActionState.files_append_self (s : ActionState) (file : SpikeFile)
    (tokens : List Token) :
    (s.append file tokens).files file = (s.files file).map (· ++ tokens) :=
  Function.update_self ..

theorem ActionState.append_nil (s : ActionState) (file : SpikeFile) : s.append file [] = s := by
  have same : (fun tokens : List Token => tokens ++ []) = id := funext List.append_nil
  rw [ActionState.append, same, Option.map_id, id_eq, Function.update_eq_self]

/-- An open generator takes the records. -/
theorem run_writeRecords (opened : s.jsonGenerator = some { file }) (records : List SpikeRecord) :
    (forM records (writeRecord refuses)).run s =
      .ok () (s.append file (records.flatMap SpikeRecord.tokens)) := by
  induction records generalizing s with
  | nil =>
    rw [List.flatMap_nil, ActionState.append_nil]
    rfl
  | cons r rest ih =>
    have one : (writeRecord refuses r).run s = .ok () (s.append file r.tokens) := by
      have written : ∀ s : ActionState, s.jsonGenerator = some { file } → ∀ token,
          (write refuses token).run s = .ok () (s.append file [token]) := fun _ => run_write
      simp [writeRecord, EStateM.run_bind, written, opened, SpikeRecord.tokens]
    rw [List.forM_cons, EStateM.run_bind, one]
    dsimp only
    rw [ih ((s.append_jsonGenerator file r.tokens).trans opened), ActionState.append_append,
      List.flatMap_cons]

/-- Without a generator, there is an exception for the first record. -/
theorem run_writeRecords_of_none (none : s.jsonGenerator = none) (records : List SpikeRecord) :
    (forM records (writeRecord refuses)).run s =
      if records = [] then .ok () s else .error "java.lang.NullPointerException" s := by
  cases records with
  | nil => rfl
  | cons r rest =>
    have failed : (write refuses .startObject).run s =
        .error "java.lang.NullPointerException" s := by
      simp only [write, EStateM.run_bind, EStateM.run_get, none]
      rfl
    rw [if_neg (List.cons_ne_nil r rest), List.forM_cons, writeRecord, EStateM.run_bind,
      EStateM.run_bind, failed]

/-! ### The check -/

/-- The state after an outdated file is closed, if there is one. -/
def ActionState.closing (s : ActionState) : ActionState :=
  match s.jsonGenerator with
  | none => s
  | some generator =>
      { s.append generator.file [.endArray] with
        jsonGenerator := some { generator with isClosed := true } }

/-- The state after another file has been opened. -/
def ActionState.started (s : ActionState) (file : SpikeFile) : ActionState where
  jsonGenerator := some { file }
  creationDate := file.creationDate
  files := Function.update s.files file (some [.startArray])

theorem run_validateFile_of_unreadable (unreadable : interval around.spikeInterval = none) :
    (validateFile refuses around).run s = .error "java.lang.NumberFormatException" s := by
  simp only [validateFile, EStateM.run_bind, EStateM.run_get, readInterval, unreadable]
  rfl

theorem run_validateFile_of_current (number : (interval around.spikeInterval).isSome)
    (current : ¬ Outdated around s.creationDate) :
    (validateFile refuses around).run s = .ok () s := by
  obtain ⟨value, read⟩ := Option.isSome_iff_exists.mp number
  have test : ¬ Long.add s.creationDate value < around.clock.checked :=
    fun passed => current ⟨value, read, passed⟩
  simp only [validateFile, EStateM.run_bind, EStateM.run_get, run_readInterval read, if_neg test]
  rfl

/-- A generator that is not closed is closed first. -/
theorem run_validateFile_of_outdated (outdated : Outdated around s.creationDate)
    (usable : ¬ Closed s) :
    (validateFile refuses around).run s = (createFile refuses around).run s.closing := by
  obtain ⟨value, read, test⟩ := outdated
  simp only [validateFile, EStateM.run_bind, EStateM.run_get, run_readInterval read, if_pos test]
  match generator : s.jsonGenerator with
  | none => simp [ActionState.closing, generator]
  | some ⟨file, true⟩ => exact absurd ⟨file, generator⟩ usable
  | some ⟨file, false⟩ =>
    simp [closeFile, EStateM.run_bind, run_write generator, ActionState.closing, generator]

/-- A generator that is closed does not take the end of the array again. -/
theorem run_validateFile_of_closed {e : String} (refused : refuses .endArray = some e)
    (outdated : Outdated around s.creationDate) (closed : Closed s) :
    (validateFile refuses around).run s = .error e s := by
  obtain ⟨value, read, test⟩ := outdated
  obtain ⟨file, present⟩ := closed
  simp only [validateFile, EStateM.run_bind, EStateM.run_get, run_readInterval read, if_pos test,
    present, Option.isSome_some, if_true, closeFile, write, refused]
  rfl

/-- A check fails at once, or has nothing to do, or goes on to another file. -/
theorem run_validateFile (refused : (refuses .endArray).isSome) (around : Surroundings)
    (s : ActionState) :
    ((interval around.spikeInterval = none ∨ Outdated around s.creationDate ∧ Closed s) ∧
      ∃ e, (validateFile refuses around).run s = .error e s) ∨
    (¬ Outdated around s.creationDate ∧ (validateFile refuses around).run s = .ok () s) ∨
    (Outdated around s.creationDate ∧ ¬ Closed s ∧
      (validateFile refuses around).run s = (createFile refuses around).run s.closing) := by
  obtain ⟨e, refused⟩ := Option.isSome_iff_exists.mp refused
  cases value : interval around.spikeInterval with
  | none => exact Or.inl ⟨Or.inl rfl, _, run_validateFile_of_unreadable value⟩
  | some value' =>
    by_cases outdated : Outdated around s.creationDate
    · by_cases closed : Closed s
      · refine Or.inl ⟨Or.inr ⟨outdated, closed⟩, e, ?_⟩
        exact run_validateFile_of_closed refused outdated closed
      · refine Or.inr (Or.inr ⟨outdated, closed, ?_⟩)
        exact run_validateFile_of_outdated outdated closed
    · refine Or.inr (Or.inl ⟨outdated, ?_⟩)
      exact run_validateFile_of_current (Option.isSome_of_eq_some value) outdated

/-- The file is created if need be, or the exception changes nothing. -/
theorem run_createNewFile (s : ActionState) (file : SpikeFile) :
    (∃ files, (createNewFile around file).run s = .ok () { s with files } ∧
      ∀ content, Function.update files file content = Function.update s.files file content) ∨
      around.createsFile = false ∧
        (createNewFile around file).run s = .error "java.io.IOException" s := by
  simp only [createNewFile, EStateM.run_bind, EStateM.run_get]
  split_ifs with present creates
  · exact Or.inl ⟨s.files, rfl, fun _ => rfl⟩
  · exact Or.inl ⟨_, rfl, fun content => Function.update_idem ..⟩
  · exact Or.inr ⟨Bool.eq_false_iff.mpr creates, rfl⟩

/-- Another file is opened, or the exception leaves the generator as it was, with the new date. -/
theorem run_createFile (s : ActionState) :
    (∃ file, file.creationDate = around.clock.created ∧
      around.spikeDirectory = some file.directory ∧
      (∃ value, interval around.spikeIntervalOfName = some value ∧
        file.endDate = Long.add around.clock.created value) ∧
      (createFile refuses around).run s = .ok () (s.started file)) ∨
      ¬ Works around ∧ ∃ e files, (createFile refuses around).run s =
        .error e { s with creationDate := around.clock.created, files } := by
  let dated : ActionState := { s with creationDate := around.clock.created }
  simp only [createFile, EStateM.run_bind, EStateM.run_modify]
  -- the directory is read before the interval, and that before anything is created
  cases directory : around.spikeDirectory with
  | none =>
    refine Or.inr ⟨fun works => ?_, _, s.files, rfl⟩
    exact absurd works.directory (by rw [directory]; exact Bool.false_ne_true)
  | some path =>
    cases value : interval around.spikeIntervalOfName with
    | none =>
      refine Or.inr ⟨fun works => ?_, "java.lang.NumberFormatException", s.files, ?_⟩
      · exact absurd works.intervalOfName (by rw [value]; exact Bool.false_ne_true)
      · simp only [readDirectory, readInterval, value]
        rfl
    | some value' =>
      let file : SpikeFile :=
        { directory := path
          creationDate := around.clock.created
          endDate := Long.add around.clock.created value' }
      simp only [readDirectory, EStateM.run_pure, run_readInterval value]
      rcases @run_createNewFile around dated file with ⟨files, created, same⟩ | ⟨fails, failed⟩
      · -- the file is there, so only the generator can fail
        simp only [dated, file] at created
        simp only [created]
        cases creates : around.createsGenerator with
        | true =>
          refine Or.inl ⟨file, rfl, rfl, ⟨value', rfl, rfl⟩, ?_⟩
          simp only [createGenerator, creates, if_true, EStateM.run_modify]
          refine (run_write rfl .startArray).trans ?_
          simp [ActionState.append, ActionState.started, same, file, dated]
        | false =>
          refine Or.inr ⟨fun works => ?_, "java.io.FileNotFoundException", files, ?_⟩
          · exact absurd works.generator (by rw [creates]; exact Bool.false_ne_true)
          · simp only [createGenerator, creates]
            rfl
      · simp only [dated, file] at failed
        simp only [failed]
        refine Or.inr ⟨fun works => ?_, _, s.files, rfl⟩
        exact absurd works.file (by rw [fails]; exact Bool.false_ne_true)

theorem closing_of_none (none : s.jsonGenerator = none) : s.closing = s := by
  rw [ActionState.closing, none]

theorem closed_closing (some : s.jsonGenerator ≠ none) : Closed s.closing := by
  obtain ⟨generator, present⟩ := Option.ne_none_iff_exists'.mp some
  refine ⟨generator.file, ?_⟩
  rw [ActionState.closing, present]

/-- What an exception of the check leaves: everything as it was, when the interval could not be read
or the generator was closed before; otherwise the old file is closed and the date is new. -/
theorem state_of_failed {e : String} (refused : (refuses .endArray).isSome)
    (failed : (validateFile refuses around).run s = .error e t) :
    ((interval around.spikeInterval = none ∨ Closed s) ∧ t = s) ∨
      (interval around.spikeInterval ≠ none ∧ ¬ Closed s) ∧
        t.creationDate = around.clock.created ∧
        (s.jsonGenerator = none → t.jsonGenerator = none) ∧
        (s.jsonGenerator ≠ none → Closed t) := by
  rcases run_validateFile refused around s with
    ⟨early, e', run⟩ | ⟨-, run⟩ | ⟨⟨value, read, -⟩, usable, run⟩
  · rw [run] at failed
    cases failed
    exact Or.inl ⟨early.imp_right And.right, rfl⟩
  · rw [run] at failed
    cases failed
  · rw [run] at failed
    rcases @run_createFile refuses around s.closing with ⟨file, -, -, -, run⟩ | ⟨-, e', files, run⟩
    · rw [run] at failed
      cases failed
    · -- closed on the way to a new file that was not opened
      rw [run] at failed
      cases failed
      refine Or.inr ⟨⟨?_, usable⟩, rfl, fun none => ?_, closed_closing⟩
      · rw [read]
        exact Option.some_ne_none value
      · change s.closing.jsonGenerator = _
        rw [closing_of_none none, none]

/-! ### The next application -/

theorem apply_of_mapped (mapped : (family container).isSome) :
    apply refuses around container =
      (validateFile refuses around >>= fun _ =>
        forM (requested container) (writeRecord refuses)) :=
  applyWith_of_mapped (validateFile refuses around) (writeRecord refuses) mapped

theorem apply_of_unmapped (unmapped : family container = none) :
    apply refuses around container = pure () :=
  applyWith_of_unmapped (validateFile refuses around) (writeRecord refuses) unmapped

/-- A file that has just been opened takes the records. -/
theorem recovered_started (s : ActionState) (file : SpikeFile) (records : List SpikeRecord) :
    Recovered records ((forM records (writeRecord refuses)).run (s.started file)) := by
  refine ⟨_, run_writeRecords rfl records, fun _ => ⟨file, [], rfl, ?_⟩⟩
  have content : (s.started file).files file = some [.startArray] := Function.update_self ..
  rw [ActionState.files_append_self, content]
  rfl

/-- An open generator takes the records too. -/
theorem recovered_of_opened (sound : Sound s) (opened : s.jsonGenerator = some { file })
    (records : List SpikeRecord) :
    Recovered records ((forM records (writeRecord refuses)).run s) := by
  obtain ⟨before, content⟩ := sound file opened
  refine ⟨_, run_writeRecords opened records, fun _ => ⟨file, before, opened, ?_⟩⟩
  rw [ActionState.files_append_self, content, List.flatMap_append]
  rfl

section

variable (works : Works around) (mapped : (family container).isSome)

include works mapped

/-- A generator that is outdated and not closed is replaced. -/
theorem recovered_of_outdated (outdated : Outdated around s.creationDate) (usable : ¬ Closed s) :
    Recovered (requested container) ((apply refuses around container).run s) := by
  rw [apply_of_mapped mapped, EStateM.run_bind, run_validateFile_of_outdated outdated usable]
  rcases @run_createFile refuses around s.closing with ⟨file, -, -, -, run⟩ | ⟨fails, -⟩
  · rw [run]
    exact recovered_started s.closing file _
  · exact absurd works fails

theorem run_apply_of_current (current : ¬ Outdated around s.creationDate) :
    (apply refuses around container).run s =
      (forM (requested container) (writeRecord refuses)).run s := by
  rw [apply_of_mapped mapped, EStateM.run_bind, run_validateFile_of_current works.interval current]

/-- With an open generator, an application recovers at any time. -/
theorem recovered_apply_of_opened (sound : Sound s) (opened : s.jsonGenerator = some { file }) :
    Recovered (requested container) ((apply refuses around container).run s) := by
  by_cases outdated : Outdated around s.creationDate
  · refine recovered_of_outdated works mapped outdated ?_
    rintro ⟨other, closed⟩
    rw [opened] at closed
    cases closed
  · rw [run_apply_of_current works mapped outdated]
    exact recovered_of_opened sound opened _

/-- Without a generator, it does when another file is due. -/
theorem recovered_apply_of_none_iff (none : s.jsonGenerator = none) :
    Recovered (requested container) ((apply refuses around container).run s) ↔
      Outdated around s.creationDate ∨ requested container = [] := by
  by_cases outdated : Outdated around s.creationDate
  · refine iff_of_true (recovered_of_outdated works mapped outdated ?_) (Or.inl outdated)
    rintro ⟨file, closed⟩
    rw [none] at closed
    cases closed
  · rw [or_iff_right outdated, run_apply_of_current works mapped outdated,
      run_writeRecords_of_none none]
    split_ifs with empty
    · exact iff_of_true ⟨s, rfl, fun some => absurd empty some⟩ empty
    · refine iff_of_false ?_ empty
      rintro ⟨t, run, -⟩
      cases run

/-- With a closed generator, it does when there is nothing to do. -/
theorem recovered_apply_of_closed_iff (refused : (refuses .endArray).isSome) (closed : Closed s) :
    Recovered (requested container) ((apply refuses around container).run s) ↔
      ¬ Outdated around s.creationDate ∧ requested container = [] := by
  obtain ⟨e, refused⟩ := Option.isSome_iff_exists.mp refused
  by_cases outdated : Outdated around s.creationDate
  · refine iff_of_false ?_ fun both => both.1 outdated
    rintro ⟨t, run, -⟩
    rw [apply_of_mapped mapped, EStateM.run_bind,
      run_validateFile_of_closed refused outdated closed] at run
    cases run
  · rw [and_iff_right outdated, run_apply_of_current works mapped outdated]
    have same : finalState ((forM (requested container) (writeRecord refuses)).run s) = s :=
      finalState_writeRecords_of_closed closed _
    constructor
    · rintro ⟨t, run, opened⟩
      by_contra some
      -- nothing changes, so the generator would have to be open and closed
      obtain ⟨file, before, present, -⟩ := opened some
      obtain ⟨other, closed⟩ := closed
      rw [run] at same
      obtain rfl : t = s := same
      rw [present] at closed
      cases closed
    · intro empty
      rw [empty]
      exact ⟨s, rfl, fun some => absurd rfl some⟩

end

/-! ### Without failures -/

/-- The writer of the generator, whose file is open. -/
def ofWriter (w : Writer) : ActionState where
  jsonGenerator := w.jsonGenerator.map fun file => { file }
  creationDate := w.creationDate
  files := w.files

/-- What is found when the properties stay the same and the disk works. -/
def ofSettings (settings : Settings) (clock : Clock) : Surroundings where
  clock := clock
  spikeInterval := settings.spikeInterval.map some
  spikeDirectory := settings.spikeDirectory
  spikeIntervalOfName := settings.spikeInterval.map some
  fileExists := false
  createsFile := true
  createsGenerator := true

theorem interval_ofSettings (settings : Settings) (clock : Clock) :
    interval (ofSettings settings clock).spikeInterval = some settings.interval := by
  rw [ofSettings, Settings.interval]
  cases settings.spikeInterval <;> rfl

theorem outdated_ofSettings_iff {settings : Settings} {clock : Clock} {w : Writer} :
    Outdated (ofSettings settings clock) w.creationDate ↔ w.Outdated settings clock := by
  constructor
  · rintro ⟨value, read, passed⟩
    rw [interval_ofSettings] at read
    obtain rfl := Option.some.inj read
    exact passed
  · exact fun passed => ⟨settings.interval, interval_ofSettings settings clock, passed⟩

theorem files_closing_ofWriter (w : Writer) : (ofWriter w).closing.files = w.closed.files := by
  unfold Writer.closed ActionState.closing ofWriter
  cases w.jsonGenerator <;> rfl

theorem not_closed_ofWriter (w : Writer) : ¬ Closed (ofWriter w) := by
  rintro ⟨file, closed⟩
  obtain ⟨other, -, same⟩ := Option.map_eq_some_iff.mp closed
  cases same

theorem forget_writeRecords (records : List SpikeRecord) (w : Writer) :
    forget ofWriter id ((forM records SpikeGenerator.writeRecord).run w) =
      (forM records (writeRecord refuses)).run (ofWriter w) := by
  cases generator : w.jsonGenerator with
  | none =>
    have none : (ofWriter w).jsonGenerator = none := by rw [ofWriter, generator]; rfl
    rw [run_writeRecords_of_none none]
    cases records with
    | nil => rfl
    | cons r rest =>
      rw [List.forM_cons, EStateM.run_bind, run_writeRecord_of_none generator]
      rfl
  | some file =>
    have opened : (ofWriter w).jsonGenerator = some { file } := by rw [ofWriter, generator]; rfl
    rw [run_writeRecords opened, SpikeGenerator.run_writeRecords records generator]
    rfl

/-- With a directory, the check of the generator is the one here when nothing fails. -/
theorem forget_validateFile {settings : Settings} {directory : String}
    (specified : settings.spikeDirectory = some directory) (clock : Clock) (w : Writer) :
    forget ofWriter id ((SpikeGenerator.validateFile settings clock).run w) =
      (validateFile refuses (ofSettings settings clock)).run (ofWriter w) := by
  have same : Outdated (ofSettings settings clock) (ofWriter w).creationDate ↔
      w.Outdated settings clock := outdated_ofSettings_iff
  have number := interval_ofSettings settings clock
  by_cases outdated : w.Outdated settings clock
  · rw [SpikeGenerator.run_validateFile_of_outdated outdated,
      SpikeGenerator.run_createFile w.closed specified,
      run_validateFile_of_outdated (same.mpr outdated) (not_closed_ofWriter w)]
    have works : Works (ofSettings settings clock) :=
      ⟨Option.isSome_of_eq_some number, Option.isSome_of_eq_some specified,
        Option.isSome_of_eq_some number, rfl, rfl⟩
    rcases @run_createFile refuses (ofSettings settings clock) (ofWriter w).closing with
      ⟨file, date, path, ⟨value, read, ends⟩, run⟩ | ⟨fails, -⟩
    · -- the two files have the same name
      obtain rfl := Option.some.inj (number.symm.trans read)
      obtain rfl : settings.file directory clock.created = file := by
        have folder := Option.some.inj (specified.symm.trans path)
        cases file
        cases folder
        cases date
        cases ends
        rfl
      rw [run, ActionState.started, files_closing_ofWriter]
      rfl
    · exact absurd works fails
  · rw [SpikeGenerator.run_validateFile_of_current outdated,
      run_validateFile_of_current (Option.isSome_of_eq_some number) (mt same.mp outdated)]
    rfl

/-- So is the application. -/
theorem forget_apply {settings : Settings} {directory : String}
    (specified : settings.spikeDirectory = some directory) (clock : Clock)
    (container : Option RoboticDataContainer) (w : Writer) :
    forget ofWriter id ((SpikeGenerator.apply settings clock container).run w) =
      (apply refuses (ofSettings settings clock) container).run (ofWriter w) := by
  cases data : family container with
  | none =>
    rw [apply_of_unmapped data, SpikeGenerator.apply_of_unmapped settings clock data]
    rfl
  | some name =>
    have mapped : (family container).isSome := Option.isSome_of_eq_some data
    have checked : forget ofWriter id ((SpikeGenerator.validateFile settings clock).run w) =
        (validateFile refuses (ofSettings settings clock)).run (ofWriter w) :=
      forget_validateFile specified clock w
    rw [SpikeGenerator.apply_of_mapped settings clock mapped, apply_of_mapped mapped,
      EStateM.run_bind, EStateM.run_bind, ← checked]
    cases (SpikeGenerator.validateFile settings clock).run w with
    | ok a w' => exact forget_writeRecords (requested container) w'
    | error e w' => rfl

/-! ### Runs -/

/-- A message to the actor, and what it finds. -/
structure Message where
  around : Surroundings
  container : Option RoboticDataContainer

/-- The actor receives a message. An exception is sent back to the sender. -/
def receive (refuses : Token → Option String) (m : Message) : FailingProgram Unit :=
  apply refuses m.around m.container

theorem Sound.append (sound : Sound s) (opened : s.jsonGenerator = some { file })
    (records : List SpikeRecord) : Sound (s.append file (records.flatMap SpikeRecord.tokens)) := by
  intro other present
  obtain rfl : file = other := by
    have same := Option.some.inj (opened.symm.trans present)
    exact congrArg Generator.file same
  obtain ⟨before, content⟩ := sound file opened
  refine ⟨before ++ records, ?_⟩
  rw [ActionState.files_append_self, content, List.flatMap_append]
  rfl

theorem Sound.writeRecords (sound : Sound s) (records : List SpikeRecord) :
    Sound (finalState ((forM records (writeRecord refuses)).run s)) := by
  match generator : s.jsonGenerator with
  | none =>
    rw [run_writeRecords_of_none generator]
    split_ifs
    · exact sound
    · exact sound
  | some ⟨file, false⟩ =>
    rw [run_writeRecords generator]
    exact sound.append generator records
  | some ⟨file, true⟩ =>
    rw [finalState_writeRecords_of_closed ⟨file, generator⟩]
    exact sound

theorem sound_of_closed (closed : Closed s) : Sound s := by
  obtain ⟨file, closed⟩ := closed
  intro other present
  rw [present] at closed
  cases closed

theorem sound_started (s : ActionState) (file : SpikeFile) : Sound (s.started file) := by
  rintro _ ⟨⟩
  exact ⟨[], Function.update_self ..⟩

/-- The check leaves an open array behind every open generator, whatever fails. -/
theorem Sound.validateFile (refused : (refuses .endArray).isSome) (sound : Sound s)
    (around : Surroundings) : Sound (finalState ((validateFile refuses around).run s)) := by
  rcases run_validateFile refused around s with ⟨-, e, run⟩ | ⟨-, run⟩ | ⟨-, -, run⟩
  · rw [run]
    exact sound
  · rw [run]
    exact sound
  · rw [run]
    rcases @run_createFile refuses around s.closing with ⟨file, -, -, -, run⟩ | ⟨-, e, files, run⟩
    · rw [run]
      exact sound_started s.closing file
    · -- there is no open generator
      rw [run]
      by_cases none : s.jsonGenerator = none
      · rw [closing_of_none none]
        intro file present
        exact nomatch none.symm.trans present
      · exact sound_of_closed (closed_closing none)

theorem Sound.receive (refused : (refuses .endArray).isSome) (sound : Sound s) (m : Message) :
    Sound (finalState ((receive refuses m).run s)) := by
  cases data : family m.container with
  | none =>
    rw [Failing.receive, apply_of_unmapped data]
    exact sound
  | some name =>
    have checked := sound.validateFile refused m.around
    rw [Failing.receive, apply_of_mapped (Option.isSome_of_eq_some data)]
    -- the records are written only where the check went through
    refine holds_bind (fun e t run => ?_) fun _ t run => ?_
    · rwa [run] at checked
    · rw [run] at checked
      exact checked.writeRecords _

/-- In every state that is reached, an open generator has an open array. -/
theorem sound_of_reachable (refused : (refuses .endArray).isSome)
    (reached : Reachable (receive refuses) (fun _ _ => True) {} s) : Sound s :=
  reached.invariant (fun _ present => nomatch present) fun _ m sound _ => sound.receive refused m

/-- A message changes nothing when the generator is closed. -/
theorem finalState_receive_of_closed (refused : (refuses .endArray).isSome) (closed : Closed s)
    (m : Message) : finalState ((receive refuses m).run s) = s := by
  cases data : family m.container with
  | none => rw [receive, apply_of_unmapped data]; rfl
  | some name =>
    have checked : finalState ((validateFile refuses m.around).run s) = s := by
      rcases run_validateFile refused m.around s with ⟨-, e, run⟩ | ⟨-, run⟩ | ⟨-, usable, -⟩
      · rw [run, finalState_error]
      · rw [run, finalState_ok]
      · exact absurd closed usable
    rw [receive, apply_of_mapped (Option.isSome_of_eq_some data)]
    exact finalState_bind_of_unchanged checked (finalState_writeRecords_of_closed closed _)

/-- A closed generator stays, and nothing is ever written again. -/
theorem runAll_of_closed (refused : (refuses .endArray).isSome) (closed : Closed s)
    (messages : List Message) : runAll (receive refuses) messages s = s := by
  induction messages with
  | nil => rfl
  | cons m rest ih => rw [runAll, finalState_receive_of_closed refused closed, ih]

/-- After a failure the next application recovers when the interval could not be read in the first
place and the old generator is still open, or when there was none and another file is due; or when
none is due and there is nothing to write. -/
theorem recovered_iff (refused : (refuses .endArray).isSome)
    (reached : Reachable (receive refuses) (fun _ _ => True) {} s) {e : String}
    (failed : (validateFile refuses around).run s = .error e t) {next : Surroundings}
    (works : Works next) (mapped : (family container).isSome) :
    Recovered (requested container) ((apply refuses next container).run t) ↔
      (interval around.spikeInterval = none ∧ ∃ file, s.jsonGenerator = some { file }) ∨
      (s.jsonGenerator = none ∧ Outdated next (dateAfter around s)) ∨
      (¬ Outdated next (dateAfter around s) ∧ requested container = []) := by
  have sound := sound_of_reachable refused reached
  have left := state_of_failed refused failed
  have date : t.creationDate = dateAfter around s := by
    unfold dateAfter
    rcases left with ⟨early, rfl⟩ | ⟨late, date, -⟩
    · rw [if_pos early]
    · rw [if_neg (not_or.mpr late), date]
  rw [← date]
  -- without a generator, with an open one, and with one that an earlier failure closed
  match generator : s.jsonGenerator with
  | none =>
    have none : t.jsonGenerator = none := by
      rcases left with ⟨-, rfl⟩ | ⟨-, -, idle, -⟩
      · exact generator
      · exact idle generator
    rw [recovered_apply_of_none_iff works mapped none]
    by_cases outdated : Outdated next t.creationDate <;> simp [outdated]
  | some ⟨file, false⟩ =>
    have usable : ¬ Closed s := fun ⟨_, closed⟩ => nomatch generator.symm.trans closed
    rcases left with ⟨early, rfl⟩ | ⟨late, -, -, closed⟩
    · -- the interval was read in vain, and the generator is as it was
      refine iff_of_true (recovered_apply_of_opened works mapped sound generator) (Or.inl ?_)
      exact ⟨early.resolve_right usable, file, rfl⟩
    · have closed := closed (by rw [generator]; exact Option.some_ne_none _)
      rw [recovered_apply_of_closed_iff works mapped refused closed]
      simp [late.1]
  | some ⟨file, true⟩ =>
    have closed : Closed s := ⟨file, generator⟩
    -- a closed generator fails again, which changes nothing
    have same : t = s := by
      rcases left with ⟨-, same⟩ | ⟨late, -⟩
      · exact same
      · exact absurd closed late.2
    rw [recovered_apply_of_closed_iff works mapped refused (same ▸ closed)]
    simp

/-! ### A directory that is missing once -/

/-- A closed generator that throws for every token. -/
def throwing : Token → Option String
  | .endArray => some "Current context not an ARRAY but root"
  | _ => some "java.lang.NullPointerException"

/-- What is found at a time: a disk that works, and these properties. -/
def foundAt (time : ℤ) (spikeInterval : Option (Option ℤ)) (spikeDirectory : Option String) :
    Surroundings where
  clock := ⟨time, time⟩
  spikeInterval := spikeInterval
  spikeDirectory := spikeDirectory
  spikeIntervalOfName := spikeInterval
  fileExists := false
  createsFile := true
  createsGenerator := true

/-- A container with one datum for the hand. -/
def hand : RoboticDataContainer where
  channel := 0
  values := [{ data := "7", time := 19 }]

/-- The state after a first message, at the time 5. -/
def opened : ActionState :=
  finalState ((receive throwing ⟨foundAt 5 none (some "/tmp"), some hand⟩).run {})

theorem reachable_opened : Reachable (receive throwing) (fun _ _ => True) {} opened :=
  .step _ .start trivial

theorem works_foundAt (time : ℤ) : Works (foundAt time none (some "/tmp")) :=
  ⟨rfl, rfl, rfl, rfl, rfl⟩

/-- The next message is written when the interval was not a number for a while. -/
theorem recovered_after_number : ∃ e t,
    (validateFile throwing (foundAt 20000 (some none) (some "/tmp"))).run opened = .error e t ∧
      Recovered (requested (some hand))
        ((apply throwing (foundAt 20001 none (some "/tmp")) (some hand)).run t) := by
  have failed : (validateFile throwing (foundAt 20000 (some none) (some "/tmp"))).run opened =
      .error "java.lang.NumberFormatException" opened := rfl
  refine ⟨_, opened, failed, ?_⟩
  exact (recovered_iff rfl reachable_opened failed (works_foundAt 20001) rfl).mpr
    (Or.inl ⟨rfl, _, rfl⟩)

/-- The next message is not written when the directory was missing at a rotation. -/
theorem not_recovered_after_directory : ∃ e t,
    (validateFile throwing (foundAt 20000 none none)).run opened = .error e t ∧
      ¬ Recovered (requested (some hand))
        ((apply throwing (foundAt 20001 none (some "/tmp")) (some hand)).run t) := by
  refine ⟨_, _, rfl, fun recovered => ?_⟩
  have closed :
      Closed (finalState ((validateFile throwing (foundAt 20000 none none)).run opened)) :=
    ⟨_, rfl⟩
  have both := (recovered_apply_of_closed_iff (works_foundAt 20001) rfl rfl closed).mp recovered
  exact absurd both.2 (List.cons_ne_nil _ _)

end ThinkingUnderstanding.SpikeGenerator.Failing
