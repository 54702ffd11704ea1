import Mathlib.Data.Countable.Basic
import Mathlib.Logic.Equiv.List
import ThinkingUnderstanding.Spike.RoboticConversation
import ThinkingUnderstanding.Spike.SpikeFiles

/-!
# Spike data is stored exactly once

The conversation of a request asks the generator once, if its channel is that of a classifier,
and not at all otherwise. Whatever the interleaving, the actors answer as the conversations
expect, and the generator writes the data of a request when it is asked for it: it handles
one message at a time, so the records of a request are not torn apart.

## Main definitions

* `RoboticDataRequest.WellFormed` — the text of a request holds a channel and data
* `Robotics.StoredOnce` — the records are those of the requests that have been handled

## Main results

* `Writer.Ready.apply` — the generator writes one request
* `storedOnce_of_run` — for all requests and all interleavings
-/

namespace ThinkingUnderstanding

open Math Semantics ThinkingLifeCycle Training

/-- The text of a request holds a channel within 32 bits and data, each with a value
and a time; its resource does not have the name of the container that is made of it. -/
structure RoboticDataRequest.WellFormed (objects : Objects) (json : Json)
    (request : RoboticDataRequest) (container : RoboticDataContainer) : Prop where
  name : objects.name request.inputResource.uri ≠ spikeResource
  parsed : ∃ value parsedJson elements,
    objects.contentOf request.inputResource = .knowledgeString value ∧
    json.parseOpt value = some parsedJson ∧
    parsedJson.get "channel" = some (.integral container.channel) ∧
    parsedJson.get "data" = some (.array elements) ∧
    List.Forall₂ (fun jsonNode datum => ∃ data time, jsonNode.get "data" = some data ∧
      jsonNode.get "time" = some time ∧ datum.data = json.asText data ∧ datum.time = json.asLong time)
      elements container.values
  inRange : -2 ^ 31 ≤ container.channel ∧ container.channel < 2 ^ 31

/-- The records of a request: those of channel 0 are of the family hand, those of channel 1 of
the family distance, and there are no others. -/
def spikeRecords (container : RoboticDataContainer) : List SpikeGenerator.SpikeRecord :=
  if container.channel = 0 then
    container.values.map fun datum => { family := "hand", time := datum.time, data := datum.data }
  else if container.channel = 1 then
    container.values.map fun datum =>
      { family := "distance", time := datum.time, data := datum.data }
  else []

theorem requested_eq_spikeRecords (container : RoboticDataContainer) :
    SpikeGenerator.requested (some container) = spikeRecords container := by
  obtain ⟨channel, values⟩ := container
  by_cases hand : channel = 0
  · subst hand
    rfl
  · by_cases distance : channel = 1
    · subst distance
      rfl
    · have none : SpikeGenerator.channelMapping channel = none := by
        unfold SpikeGenerator.channelMapping
        split <;> simp_all
      simp [SpikeGenerator.requested, none, spikeRecords, hand, distance]

/-! ### What the actors answer -/

section Answers

variable {ι C P : Type} {robotics : Robotics ι} {container : RoboticDataContainer}
  {ctx : ShortTermMemory C P}

/-- The text of a well-formed request is made into its container. -/
theorem understand_eq {request : RoboticDataRequest} {new : RoboticDataContainer → Resource}
    (wellFormed : request.WellFormed robotics.objects robotics.json container)
    (asked : ctx.lastResult = some request.inputResource) :
    UnderstandRequestCritic.apply robotics.objects robotics.json new ctx =
      .ok (ContextHelper.ofLastResult [new container] (new container)) := by
  obtain ⟨value, parsedJson, elements, content, parsed, channel, data, each⟩ := wellFormed.parsed
  have read : elements.mapM (UnderstandRequestCritic.roboticData robotics.json) =
      .ok container.values := by
    clear data
    generalize container.values = values at each
    induction each with
    | nil => rfl
    | @cons jsonNode datum _ _ first _ ih =>
      obtain ⟨data, time, hasData, hasTime, sameData, sameTime⟩ := first
      have same : UnderstandRequestCritic.roboticData robotics.json jsonNode = .ok datum := by
        rw [UnderstandRequestCritic.roboticData, hasData, hasTime]
        exact congrArg Except.ok (RoboticData.ext sameData.symm sameTime.symm)
      rw [List.mapM_cons, same, ih]
      rfl
  -- a channel in the range of `Int` is not cut
  have number : robotics.json.asInt (.integral container.channel) = container.channel :=
    robotics.json.asInt_integral _ wellFormed.inRange.1 wellFormed.inRange.2
  simp only [UnderstandRequestCritic.apply, asked, content, parsed, channel, data,
    JsonNode.isIntegralNumber, JsonNode.isArray, JsonNode.elements, Bool.and_self, if_true, read,
    number]
  rfl

/-- A classifier sees the container of the request. -/
theorem classify_eq (holds : Holds robotics.objects container ctx) (new : SelectorRequest)
    (channel : ℤ) :
    SpikeClassifierCritic.classify robotics.objects new ctx channel =
      if container.channel = channel then
        (ContextHelper.ofResources []).setLastResult (some (.selectorRequest new))
      else ContextHelper.ofResources [] := by
  obtain ⟨r, created, carries⟩ := holds
  rw [SpikeClassifierCritic.classify, carries.container created]

/-- The critic that looks for something to report finds nothing. -/
theorem manage_eq (holds : Holds robotics.objects container ctx) (new : SelectorRequest) :
    DoNotUnderstandManager.apply new ctx = ContextHelper.ofResources [] := by
  obtain ⟨r, created, carries⟩ := holds
  have clear := carries.clear
  simp [DoNotUnderstandManager.apply, clear.lastError, clear.notUnderstoodConcepts,
    clear.notUnderstoodPhrases, clear.resultToReport, clear.solutionsToReport, TypedKLine.size,
    InsertionMap.size]

end Answers

namespace SpikeGenerator

/-- The generator can write: the files are rotated, and without a file the next one is due. -/
structure Writer.Ready (settings : Settings) (w : Writer) : Prop where
  rotated : w.Rotated
  ends : Long.add w.creationDate settings.interval = w.creationDate + settings.interval
  dated : w.jsonGenerator = none → w.creationDate = Long.minValue

theorem ready_initial {settings : Settings} (forward : 0 ≤ settings.interval)
    (bounded : settings.interval < 2 ^ 63) : ({} : Writer).Ready settings where
  rotated := rotated_initial
  ends := by
    apply Long.add_of_le
    · change -2 ^ 63 ≤ -2 ^ 63 + settings.interval
      omega
    · change -2 ^ 63 + settings.interval < 2 ^ 63
      omega
  dated _ := rfl

theorem run_apply_of_current {w : Writer} {settings : Settings} {clock : Clock}
    {container : Option RoboticDataContainer} (mapped : (family container).isSome)
    (current : ¬ w.Outdated settings clock) {file : SpikeFile}
    (generator : w.jsonGenerator = some file) :
    (apply settings clock container).run w = .ok () (w.record file (requested container)) := by
  rw [apply_of_mapped settings clock mapped, EStateM.run_bind, run_validateFile_of_current current]
  exact run_writeRecords _ generator

/-- A request of a mapped channel is written, in order and in one piece. -/
theorem Writer.Ready.apply {w : Writer} {settings : Settings} {clock : Clock}
    {container : Option RoboticDataContainer} (ready : w.Ready settings)
    (mapped : (family container).isSome) {directory : String}
    (specified : settings.spikeDirectory = some directory) (forward : 0 ≤ settings.interval)
    (epoch : 0 ≤ clock.checked) (ordered : clock.checked ≤ clock.created)
    (bounded : clock.created + settings.interval < 2 ^ 63) :
    ∃ w', (apply settings clock container).run w = .ok () w' ∧ w'.Ready settings ∧
      w'.written.map Prod.snd = w.written.map Prod.snd ++ requested container := by
  have rotated := (rotated_receive specified ready.rotated ⟨clock, container⟩ ready.ends forward
    ordered).1
  rw [receive] at rotated
  have records : ∀ (w : Writer) (file : SpikeFile), (w.record file (requested container)).written.map
      Prod.snd = w.written.map Prod.snd ++ requested container := by
    intro w file
    simp [Function.comp_def]
  by_cases outdated : w.Outdated settings clock
  · have run := run_apply_of_outdated mapped outdated specified
    rw [run] at rotated
    refine ⟨_, run, ⟨rotated, ?_, fun none => ?_⟩, ?_⟩
    · exact Long.add_of_le (by change -2 ^ 63 ≤ clock.created + settings.interval; omega) bounded
    · cases none
    · rw [records]
      exact congrArg (fun written => written.map Prod.snd ++ _) w.written_closed
  · cases generator : w.jsonGenerator with
    | none =>
      -- before the first file, the file is outdated
      refine absurd ?_ outdated
      rw [Writer.Outdated, ready.ends, ready.dated generator]
      change -2 ^ 63 + settings.interval < clock.checked
      omega
    | some file =>
      have run := run_apply_of_current mapped outdated generator
      rw [run] at rotated
      refine ⟨_, run, ⟨rotated, ready.ends, fun none => ?_⟩, records w file⟩
      cases generator.symm.trans none

end SpikeGenerator

/-! ### The conversations that share the actors -/

/-- The actors that are asked for a request on a channel. -/
def askedNames (channel : ℤ) : List String :=
  ["tu.coreservice.action.critic.robotic.UnderstandRequestCritic",
    "tu.coreservice.action.critic.robotic.classifier.HandSpikeClassifierCritic"] ++
  (if channel = handChannelNumber then [selectorRequestSpikeGeneratorURI] else []) ++
  ["tu.coreservice.action.critic.robotic.classifier.DistanceSpikeClassifierCritic"] ++
  (if channel = distanceChannelNumber then [selectorRequestSpikeGeneratorURI] else []) ++
  ["tu.coreservice.action.critic.manager.DoNotUnderstandManager"]

theorem map_name_exchangesOf {C P : Type} (objects : Objects) (container : RoboticDataContainer)
    (input : Resource) :
    (exchangesOf (C := C) (P := P) objects container input).map Exchange.name =
      askedNames container.channel := by
  unfold exchangesOf classifyExchanges generateExchanges askedNames
  split_ifs <;> rfl

/-- The channel is that of the first classifier, of the second, or of none. -/
theorem askedNames_cases (channel : ℤ) :
    (channel = 0 ∧ askedNames channel = askedNames 0) ∨
      (channel = 1 ∧ askedNames channel = askedNames 1) ∨
      ((channel ≠ 0 ∧ channel ≠ 1) ∧ askedNames channel = askedNames 2) := by
  by_cases hand : channel = 0
  · exact Or.inl ⟨hand, by rw [hand]⟩
  · by_cases distance : channel = 1
    · exact Or.inr (Or.inl ⟨distance, by rw [distance]⟩)
    · refine Or.inr (Or.inr ⟨⟨hand, distance⟩, ?_⟩)
      have noHand : channel ≠ handChannelNumber := hand
      have noDistance : channel ≠ distanceChannelNumber := distance
      rw [askedNames, if_neg noHand, if_neg noDistance]
      rfl

/-- No actor is asked twice. -/
theorem nodup_askedNames (channel : ℤ) : (askedNames channel).Nodup := by
  rcases askedNames_cases channel with ⟨-, same⟩ | ⟨-, same⟩ | ⟨-, same⟩ <;> rw [same] <;> decide

theorem length_askedNames_le (channel : ℤ) : (askedNames channel).length ≤ 5 := by
  rcases askedNames_cases channel with ⟨-, same⟩ | ⟨-, same⟩ | ⟨-, same⟩ <;> rw [same] <;> decide

/-- The generator is asked for the channels of the classifiers. -/
theorem generator_mem_askedNames_iff (channel : ℤ) :
    selectorRequestSpikeGeneratorURI ∈ askedNames channel ↔ channel = 0 ∨ channel = 1 := by
  rcases askedNames_cases channel with ⟨rfl, -⟩ | ⟨rfl, -⟩ | ⟨⟨hand, distance⟩, same⟩
  · decide
  · decide
  · rw [same]
    exact iff_of_false (by decide) (not_or.mpr ⟨hand, distance⟩)

/-! ### What the actors do -/

section Handling

open SpikeGenerator (SpikeRecord Writer)

variable {ι C P : Type} {robotics : Robotics ι} {container : RoboticDataContainer}
  {ctx : ShortTermMemory C P} {reply : Reply C P} {w w' : Writer} {now now' : ℤ}

/-- The generator can write, and the interval of a file dated now ends within `Long`. -/
structure Robotics.Working (robotics : Robotics ι) (w : Writer) (now : ℤ) : Prop where
  ready : w.Ready robotics.settings
  epoch : 0 ≤ now
  bounded : now + robotics.settings.interval < 2 ^ 63

/-- The exchange is answered, and the records are written. -/
structure Robotics.Handled (robotics : Robotics ι) (e : Exchange C P) (w : Writer)
    (records : List SpikeRecord) (reply : Reply C P) (w' : Writer) (now' : ℤ) : Prop where
  answered : ∃ ctx, reply = .new ctx ∧ e.answered ctx
  working : robotics.Working w' now'
  written : w'.written.map Prod.snd = w.written.map Prod.snd ++ records

/-- An actor other than the generator. -/
theorem handled_of_answered {e : Exchange C P} (working : robotics.Working w now)
    (answered : e.answered ctx) : robotics.Handled e w [] (.new ctx) w now where
  answered := ⟨ctx, rfl, answered⟩
  working := working
  written := (List.append_nil _).symm

theorem handled_understand (working : robotics.Working w now) {request : RoboticDataRequest}
    (wellFormed : request.WellFormed robotics.objects robotics.json container)
    (asked : ctx.lastResult = some request.inputResource)
    (handles : robotics.Handles "tu.coreservice.action.critic.robotic.UnderstandRequestCritic"
      ctx w now reply w' now') :
    robotics.Handled (understandExchange robotics.objects container request.inputResource) w []
      reply w' now' := by
  cases handles with
  | understand _ new created =>
    rw [understand_eq wellFormed asked]
    exact handled_of_answered working ⟨new container, created container, rfl⟩
  | hand named => exact absurd named (by decide)
  | distance named => exact absurd named (by decide)
  | generate named => exact absurd named (by decide)
  | manage named => exact absurd named (by decide)

/-- The critics that look at the channel, each with the channel it looks for. -/
def classifiers : List (String × ℤ) :=
  [("tu.coreservice.action.critic.robotic.classifier.HandSpikeClassifierCritic", handChannelNumber),
    ("tu.coreservice.action.critic.robotic.classifier.DistanceSpikeClassifierCritic",
      distanceChannelNumber)]

/-- A critic of the table answers as it classifies its channel. -/
theorem handled_classify (working : robotics.Working w now) {name : String} {channel : ℤ}
    (classifier : (name, channel) ∈ classifiers) (asked : Holds robotics.objects container ctx)
    (handles : robotics.Handles name ctx w now reply w' now') :
    robotics.Handled (classifyExchange robotics.objects container name channel) w [] reply w'
      now' := by
  -- no other actor has the name of one of them
  have only : ∀ critic ∈ classifiers,
      critic.1 ≠ "tu.coreservice.action.critic.robotic.UnderstandRequestCritic" ∧
      (critic.1 = "tu.coreservice.action.critic.robotic.classifier.HandSpikeClassifierCritic" →
        critic.2 = handChannelNumber) ∧
      (critic.1 = "tu.coreservice.action.critic.robotic.classifier.DistanceSpikeClassifierCritic" →
        critic.2 = distanceChannelNumber) ∧
      critic.1 ≠ selectorRequestSpikeGeneratorURI ∧
      critic.1 ≠ "tu.coreservice.action.critic.manager.DoNotUnderstandManager" := by decide
  obtain ⟨understand, hand, distance, generate, manage⟩ := only _ classifier
  cases handles with
  | hand named new created =>
    obtain rfl : channel = handChannelNumber := hand named
    exact handled_of_answered working ⟨new, created, classify_eq asked new _⟩
  | distance named new created =>
    obtain rfl : channel = distanceChannelNumber := distance named
    exact handled_of_answered working ⟨new, created, classify_eq asked new _⟩
  | understand named => exact absurd named understand
  | generate named => exact absurd named generate
  | manage named => exact absurd named manage

theorem handled_manage (working : robotics.Working w now)
    (asked : Holds robotics.objects container ctx)
    (handles : robotics.Handles "tu.coreservice.action.critic.manager.DoNotUnderstandManager"
      ctx w now reply w' now') :
    robotics.Handled (manageExchange robotics.objects container) w [] reply w' now' := by
  cases handles with
  | manage _ new => exact handled_of_answered working (manage_eq asked new)
  | understand named => exact absurd named (by decide)
  | hand named => exact absurd named (by decide)
  | distance named => exact absurd named (by decide)
  | generate named => exact absurd named (by decide)

/-- The generator finds the container of the request, and writes its records. -/
theorem handled_generate (working : robotics.Working w now)
    (specified : robotics.settings.spikeDirectory.isSome)
    (forward : 0 ≤ robotics.settings.interval)
    (mapped : container.channel = 0 ∨ container.channel = 1)
    (asked : Holds robotics.objects container ctx) {e : Exchange C P}
    (answered : e.answered (ContextHelper.ofResources []))
    (handles : robotics.Handles selectorRequestSpikeGeneratorURI ctx w now reply w' now') :
    robotics.Handled e w (spikeRecords container) reply w' now' := by
  obtain ⟨r, created, carries⟩ := asked
  obtain ⟨directory, specified⟩ := Option.isSome_iff_exists.mp specified
  cases handles with
  | generate _ clock reads =>
    have family : (SpikeGenerator.family (some container)).isSome := by
      rcases mapped with hand | distance
      · rw [SpikeGenerator.family, Option.bind_some, hand]
        rfl
      · rw [SpikeGenerator.family, Option.bind_some, distance]
        rfl
    obtain ⟨running, ordered, bounded⟩ := reads
    -- no time before 1970, so that the first check opens a file
    have epoch : 0 ≤ clock.checked := le_trans working.epoch running
    obtain ⟨w', run, ready, written⟩ :=
      working.ready.apply family specified forward epoch ordered bounded
    rw [carries.container created, run]
    rw [requested_eq_spikeRecords] at written
    exact ⟨⟨_, rfl, answered⟩, ⟨ready, le_trans epoch ordered, bounded⟩, written⟩
  | understand named => exact absurd named (by decide)
  | hand named => exact absurd named (by decide)
  | distance named => exact absurd named (by decide)
  | manage named => exact absurd named (by decide)

theorem mem_generateExchanges {objects : Objects} {channel : ℤ} {e : Exchange C P}
    (member : e ∈ generateExchanges objects container channel) :
    container.channel = channel ∧ e.name = selectorRequestSpikeGeneratorURI ∧
      e.asked = Holds objects container ∧ e.answered (ContextHelper.ofResources []) := by
  unfold generateExchanges at member
  split_ifs at member with here
  · obtain rfl := List.mem_singleton.mp member
    exact ⟨here, rfl, rfl, rfl⟩
  · cases member

/-- The actor that is asked answers the exchange; the generator writes the records. -/
theorem handled_of_mem (working : robotics.Working w now) {request : RoboticDataRequest}
    (wellFormed : request.WellFormed robotics.objects robotics.json container)
    (specified : robotics.settings.spikeDirectory.isSome)
    (forward : 0 ≤ robotics.settings.interval) {e : Exchange C P}
    (member : e ∈ exchangesOf robotics.objects container request.inputResource)
    (asked : e.asked ctx) (handles : robotics.Handles e.name ctx w now reply w' now') :
    robotics.Handled e w
      (if e.name = selectorRequestSpikeGeneratorURI then spikeRecords container else [])
      reply w' now' := by
  have generates : ∀ channel, channel = 0 ∨ channel = 1 →
      e ∈ generateExchanges robotics.objects container channel →
      robotics.Handled e w
        (if e.name = selectorRequestSpikeGeneratorURI then spikeRecords container else [])
        reply w' now' := by
    intro channel mapped member
    obtain ⟨rfl, named, asks, answered⟩ := mem_generateExchanges member
    rw [if_pos named]
    rw [asks] at asked
    rw [named] at handles
    exact handled_generate working specified forward mapped asked answered handles
  -- the exchanges of a request, one kind after the other
  simp only [exchangesOf, classifyExchanges, List.cons_append, List.mem_cons, List.mem_append,
    List.not_mem_nil, or_false] at member
  rcases member with rfl | rfl | (member | rfl | member) | rfl
  · exact handled_understand working wellFormed asked handles
  · exact handled_classify working (by simp [classifiers]) asked handles
  · exact generates handChannelNumber (Or.inl rfl) member
  · exact handled_classify working (by simp [classifiers]) asked handles
  · exact generates distanceChannelNumber (Or.inr rfl) member
  · exact handled_manage working asked handles

end Handling

/-! ### Runs -/

section Runs

open SpikeGenerator (Writer)

variable {ι C P : Type} (robotics : Robotics ι) (containers : ι → RoboticDataContainer)

/-- The texts of the requests are well formed, the generator has a directory to write to, and
the times stay within `Long`. There is always a new object. -/
structure Robotics.Served (start : ℤ) : Prop where
  wellFormed : ∀ i, (robotics.requests i).WellFormed robotics.objects robotics.json (containers i)
  specified : robotics.settings.spikeDirectory.isSome
  forward : 0 ≤ robotics.settings.interval
  epoch : 0 ≤ start
  bounded : start + robotics.settings.interval < 2 ^ 63
  newContainer : ∀ container, ∃ r, robotics.objects.IsContainer container r
  newRequest : ∃ request, robotics.objects.AsksForGenerator request

/-- The conversation of a request. -/
def Robotics.exchanges (i : ι) : List (Exchange C P) :=
  exchangesOf robotics.objects (containers i) (robotics.requests i).inputResource

/-- What a life cycle has heard are answers to the first exchanges of its conversation, and it
`wrote` when the generator is among them. -/
def Robotics.Heard (i : ι) (replies : List (Reply C P)) (wrote : Prop) : Prop :=
  ∃ done later ctxs, robotics.exchanges containers i = done ++ later ∧ Answers done ctxs ∧
    replies = ctxs.map Reply.new ∧
    (wrote ↔ selectorRequestSpikeGeneratorURI ∈ done.map Exchange.name)

/-- The records are those of the requests of `order`. -/
structure Robotics.Stored (order : List ι) (s : RoboticState ι C P) : Prop where
  heard : ∀ i, robotics.Heard containers i (s.heard i) (i ∈ order)
  nodup : order.Nodup
  working : robotics.Working s.writer s.now
  written : s.writer.written.map Prod.snd = order.flatMap fun i => spikeRecords (containers i)

/-- Every datum of a request is written once: the records are those of the requests that the
generator has handled, one request after another. They are requests of the channels 0 and 1,
and all of these whose life cycle has returned. The files hold the records. Each life cycle
goes on until it returns, after five answers at most. -/
structure Robotics.StoredOnce [DecidableEq ι] [DecidableEq C] [DecidableEq P]
    (s : RoboticState ι C P) : Prop where
  written : ∃ order : List ι, order.Nodup ∧
    (∀ i ∈ order, (containers i).channel = 0 ∨ (containers i).channel = 1) ∧
    (∀ i ctx, robotics.next s i = .returned ctx →
      (containers i).channel = 0 ∨ (containers i).channel = 1 → i ∈ order) ∧
    s.writer.written.map Prod.snd = order.flatMap fun i => spikeRecords (containers i)
  filed : s.writer.Rotated
  short : ∀ i, (s.heard i).length ≤ 5
  goesOn : ∀ i, (∃ ctx, robotics.next s i = .returned ctx) ∨ ∃ t, robotics.Step i s t

variable {robotics containers} {order : List ι} {s t : RoboticState ι C P} {start : ℤ} {i : ι}

variable (robotics containers i) in
theorem map_name_exchanges :
    (robotics.exchanges (C := C) (P := P) containers i).map Exchange.name =
      askedNames (containers i).channel := map_name_exchangesOf ..

/-- One more answer is heard. -/
theorem heard_snoc {done later : List (Exchange C P)} {e : Exchange C P}
    {ctxs : List (ShortTermMemory C P)} {ctx : ShortTermMemory C P} {wrote : Prop}
    (split : robotics.exchanges containers i = done ++ e :: later) (answers : Answers done ctxs)
    (answered : e.answered ctx)
    (wrote_iff : wrote ↔ selectorRequestSpikeGeneratorURI ∈ done.map Exchange.name ∨
      e.name = selectorRequestSpikeGeneratorURI) :
    robotics.Heard containers i (ctxs.map Reply.new ++ [.new ctx]) wrote := by
  refine ⟨done ++ [e], later, ctxs ++ [ctx], ?_, ?_, by simp, ?_⟩
  · rw [split, List.append_assoc, List.singleton_append]
  · exact List.rel_append answers (.cons answered .nil)
  · rw [wrote_iff, List.map_append, List.mem_append, List.map_singleton, List.mem_singleton, eq_comm]

theorem stored_initial (served : robotics.Served containers start) :
    robotics.Stored containers [] ({ now := start } : RoboticState ι C P) where
  heard i := ⟨[], _, [], rfl, .nil, rfl, by simp⟩
  nodup := List.nodup_nil
  working := by
    have bounded := served.bounded
    have epoch := served.epoch
    refine ⟨SpikeGenerator.ready_initial served.forward ?_, epoch, bounded⟩
    omega
  written := rfl

/-- One life cycle hears something, and may have written. -/
theorem heard_update [DecidableEq ι] {heard : ι → List (Reply C P)} {replies : List (Reply C P)}
    {order' : List ι} (old : ∀ j, robotics.Heard containers j (heard j) (j ∈ order))
    (own : robotics.Heard containers i replies (i ∈ order'))
    (others : ∀ j ≠ i, (j ∈ order' ↔ j ∈ order)) (j : ι) :
    robotics.Heard containers j (Function.update heard i replies j) (j ∈ order') := by
  by_cases same : j = i
  · rw [same, Function.update_self]
    exact own
  · rw [Function.update_of_ne same, others j same]
    exact old j

variable [DecidableEq ι] [DecidableEq C] [DecidableEq P]

/-- The life cycle that is answered hears one more answer; it is the request whose records are
written, if the generator was asked. -/
theorem Robotics.Stored.step (served : robotics.Served containers start)
    (stored : robotics.Stored containers order s) (step : robotics.Step i s t) :
    robotics.Stored containers order t ∨ robotics.Stored containers (order ++ [i]) t := by
  obtain @⟨name, ctx, reply, w, now, waiting, handled⟩ := step
  obtain ⟨done, later, ctxs, split, answers, script, wrote⟩ := stored.heard i
  have follows := follows_lifeCycle (C := C) (P := P) (containers i) i
    (served.wellFormed i).name
  rw [Robotics.next, script] at waiting
  -- a life cycle that has heard all answers has returned, and takes no step
  cases later with
  | nil =>
    rw [List.append_nil] at split
    obtain ⟨ctx, returned⟩ := follows.conversation_returned (split ▸ answers)
    exact nomatch returned.symm.trans waiting
  | cons e later =>
    obtain ⟨ctx, asks, asked⟩ := follows.conversation_waiting split answers
    obtain ⟨rfl, rfl⟩ := Conversation.waiting.inj (asks.symm.trans waiting)
    have member : e ∈ robotics.exchanges containers i := by
      rw [split]
      exact List.mem_append_right _ List.mem_cons_self
    obtain ⟨⟨ctx', rfl, answered⟩, working, written⟩ := handled_of_mem stored.working
      (served.wellFormed i) served.specified served.forward member asked handled
    -- a request asks under each name once, so the generator has not been asked before
    have once : e.name ∉ done.map Exchange.name := by
      have nodup := nodup_askedNames (containers i).channel
      rw [← map_name_exchanges (C := C) (P := P) robotics containers i, split, List.map_append,
        List.map_cons] at nodup
      exact fun again => (List.nodup_append.mp nodup).2.2 _ again _ List.mem_cons_self rfl
    by_cases generator : e.name = selectorRequestSpikeGeneratorURI
    · right
      rw [if_pos generator] at written
      rw [generator] at once
      have fresh : i ∉ order := fun here => once (wrote.mp here)
      refine ⟨heard_update stored.heard ?_ fun j ne => ?_, ?_, working, ?_⟩
      · rw [script]
        exact heard_snoc split answers answered (iff_of_true (by simp) (Or.inr generator))
      · rw [List.mem_append, List.mem_singleton, or_iff_left ne]
      · rw [← List.concat_eq_append]
        exact stored.nodup.concat fresh
      · rw [written, stored.written, List.flatMap_append, List.flatMap_singleton]
    · left
      rw [if_neg generator, List.append_nil] at written
      refine ⟨heard_update stored.heard ?_ fun j _ => Iff.rfl, stored.nodup, working,
        written.trans stored.written⟩
      rw [script]
      exact heard_snoc split answers answered (by rw [wrote, or_iff_left generator])

/-- The records of a run. -/
theorem stored_of_run (served : robotics.Served containers start) {steps : List ι}
    (run : robotics.Run ({ now := start } : RoboticState ι C P) steps s) :
    ∃ order, robotics.Stored containers order s := by
  induction run with
  | nil => exact ⟨[], stored_initial served⟩
  | step _ step ih =>
    obtain ⟨order, stored⟩ := ih
    rcases stored.step served step with same | more
    · exact ⟨_, same⟩
    · exact ⟨_, more⟩

omit [DecidableEq ι] [DecidableEq C] [DecidableEq P] in
/-- An actor that is asked can handle the message. -/
theorem exists_handles (served : robotics.Served containers start) {w : Writer} {now : ℤ}
    (working : robotics.Working w now) {name : String} {channel : ℤ}
    (member : name ∈ askedNames channel) (ctx : ShortTermMemory C P) :
    ∃ reply w' now', robotics.Handles name ctx w now reply w' now' := by
  obtain ⟨request, asks⟩ := served.newRequest
  choose new created using served.newContainer
  have reads : robotics.ClockReads now ⟨now, now⟩ :=
    ⟨Int.le_refl _, Int.le_refl _, working.bounded⟩
  have generates : ∀ φ [Decidable φ],
      name ∈ (if φ then [selectorRequestSpikeGeneratorURI] else []) →
      name = selectorRequestSpikeGeneratorURI := by
    intro φ _ member
    split_ifs at member
    · exact List.mem_singleton.mp member
    · cases member
  simp only [askedNames, List.mem_append, List.mem_cons, List.not_mem_nil, or_false] at member
  rcases member with ((((understand | hand) | generate) | distance) | generate) | manage
  · exact ⟨_, _, _, .understand understand new created⟩
  · exact ⟨_, _, _, .hand hand request asks⟩
  · exact ⟨_, _, _, .generate (generates _ generate) _ reads⟩
  · exact ⟨_, _, _, .distance distance request asks⟩
  · exact ⟨_, _, _, .generate (generates _ generate) _ reads⟩
  · exact ⟨_, _, _, .manage manage request⟩

/-- A life cycle that has heard all its answers has returned; another one waits. -/
theorem Robotics.Stored.storedOnce (served : robotics.Served containers start)
    (stored : robotics.Stored containers order s) : robotics.StoredOnce containers s where
  written := by
    -- a request is in the order of the records when the generator is among what it has asked
    refine ⟨order, stored.nodup, fun i member => ?_, fun i ctx returned mapped => ?_, stored.written⟩
    · obtain ⟨done, later, ctxs, split, -, -, wrote⟩ := stored.heard i
      rw [← generator_mem_askedNames_iff,
        ← map_name_exchanges (C := C) (P := P) robotics containers i, split, List.map_append]
      exact List.mem_append_left _ (wrote.mp member)
    · obtain ⟨done, later, ctxs, split, answers, script, wrote⟩ := stored.heard i
      have follows := follows_lifeCycle (C := C) (P := P) (containers i) i
        (served.wellFormed i).name
      rw [Robotics.next, script] at returned
      cases later with
      | nil =>
        rw [wrote, ← List.append_nil done, ← split, map_name_exchanges, generator_mem_askedNames_iff]
        exact mapped
      | cons e later =>
        obtain ⟨ctx, asks, -⟩ := follows.conversation_waiting split answers
        exact nomatch asks.symm.trans returned
  filed := stored.working.ready.rotated
  short i := by
    obtain ⟨done, later, ctxs, split, answers, script, -⟩ := stored.heard i
    have all := length_askedNames_le (containers i).channel
    rw [← map_name_exchanges (C := C) (P := P) robotics containers i, split, List.length_map,
      List.length_append, answers.length_eq] at all
    rw [script, List.length_map]
    omega
  goesOn i := by
    obtain ⟨done, later, ctxs, split, answers, script, -⟩ := stored.heard i
    have follows := follows_lifeCycle (C := C) (P := P) (containers i) i
      (served.wellFormed i).name
    cases later with
    | nil =>
      rw [List.append_nil] at split
      obtain ⟨ctx, returned⟩ := follows.conversation_returned (split ▸ answers)
      exact Or.inl ⟨ctx, by rw [Robotics.next, script]; exact returned⟩
    | cons e later =>
      obtain ⟨ctx, asks, -⟩ := follows.conversation_waiting split answers
      have member : e.name ∈ askedNames (containers i).channel := by
        rw [← map_name_exchanges (C := C) (P := P) robotics containers i, split]
        exact List.mem_map_of_mem (List.mem_append_right _ List.mem_cons_self)
      obtain ⟨reply, w, now, handles⟩ := exists_handles served stored.working member ctx
      exact Or.inr ⟨_, .answered (by rw [Robotics.next, script]; exact asks) handles⟩

theorem heard_length_of_step (step : robotics.Step i s t) :
    (t.heard i).length = (s.heard i).length + 1 := by
  obtain @⟨name, ctx, reply, w, now, -, -⟩ := step
  change (Function.update s.heard i (s.heard i ++ [reply]) i).length = _
  rw [Function.update_self, List.length_append, List.length_singleton]

/-- Whatever has happened, the life cycle of a request can be brought to its end. -/
theorem exists_run_returned (served : robotics.Served containers start) (i : ι) {steps : List ι}
    (run : robotics.Run ({ now := start } : RoboticState ι C P) steps s) :
    ∃ steps' t, robotics.Run ({ now := start } : RoboticState ι C P) steps' t ∧
      ∃ ctx, robotics.next t i = .returned ctx := by
  -- the answers that may still be heard get fewer
  generalize fuel : 5 - (s.heard i).length = n
  induction n generalizing s steps with
  | zero =>
    obtain ⟨order, stored⟩ := stored_of_run served run
    have now := stored.storedOnce served
    rcases now.goesOn i with returned | ⟨t, step⟩
    · exact ⟨steps, s, run, returned⟩
    · have more := heard_length_of_step step
      obtain ⟨order', stored'⟩ := stored_of_run served (run.step step)
      have short := (stored'.storedOnce served).short i
      omega
  | succ n ih =>
    obtain ⟨order, stored⟩ := stored_of_run served run
    rcases (stored.storedOnce served).goesOn i with returned | ⟨t, step⟩
    · exact ⟨steps, s, run, returned⟩
    · have more := heard_length_of_step step
      exact ih (run.step step) (by omega)

/-- For all requests and all interleavings, spike data is stored exactly once. -/
theorem storedOnce_of_run (served : robotics.Served containers start) {steps : List ι}
    (run : robotics.Run ({ now := start } : RoboticState ι C P) steps s) :
    robotics.StoredOnce containers s := by
  obtain ⟨order, stored⟩ := stored_of_run served run
  exact stored.storedOnce served

/-- The content of objects: two texts, and all containers. -/
theorem exists_content (first second : String) : ∃ content : ℕ → Content,
    content 0 = .knowledgeString first ∧ content 1 = .knowledgeString second ∧
    ∀ container, ∃ object, content object = .roboticDataContainer container := by
  have texts : Function.Injective fun text : String => text.toList.map Char.toNat := by
    intro a b same
    have char : Function.Injective Char.toNat := fun c d => Char.toNat_inj.mp
    exact String.toList_injective (List.map_injective_iff.mpr char same)
  have data : Function.Injective fun datum : RoboticData =>
      (datum.data.toList.map Char.toNat, datum.time) := by
    intro a b same
    obtain ⟨sameData, sameTime⟩ := Prod.mk.inj same
    exact RoboticData.ext (texts sameData) sameTime
  have values : Countable RoboticData := data.countable
  have containers : Function.Injective fun container : RoboticDataContainer =>
      (container.channel, container.values) := by
    intro ⟨channel, values⟩ ⟨_, _⟩ same
    obtain ⟨rfl, rfl⟩ := Prod.mk.inj same
    rfl
  have countable : Countable RoboticDataContainer := containers.countable
  have inhabited : Nonempty RoboticDataContainer := ⟨⟨0, []⟩⟩
  obtain ⟨container, surjective⟩ := exists_surjective_nat RoboticDataContainer
  refine ⟨fun object => match object with
    | 0 => .knowledgeString first
    | 1 => .knowledgeString second
    | object + 2 => .roboticDataContainer (container object), rfl, rfl, fun c => ?_⟩
  obtain ⟨object, rfl⟩ := surjective c
  exact ⟨object + 2, rfl⟩

/-- The text of a request with one datum on the channel of the hand. -/
def handText : String :=
  "\x7b\"channel\": 0, \"data\": [\x7b\"data\": \"1\", \"time\": 5\x7d]\x7d"

/-- The text of a request without data on the channel of the distance. -/
def distanceText : String := "\x7b\"channel\": 1, \"data\": []\x7d"

/-- Two requests, one of which is handled to its end. -/
theorem storedOnce_hand_and_distance :
    ∃ (robotics : Robotics Bool) (containers : Bool → RoboticDataContainer)
      (s : RoboticState Bool Empty Empty), robotics.StoredOnce containers s ∧
      containers true = { channel := 0, values := [{ data := "1", time := 5 }] } ∧
      containers false = { channel := 1, values := [] } ∧
      ∃ ctx, robotics.next s true = .returned ctx := by
  obtain ⟨content, hand, distance, every⟩ := exists_content handText distanceText
  let objects : Objects :=
    { name := fun uri => match uri with
        | 0 => "rawroboticdata"
        | 1 => spikeResource
        | 2 => selectorRequestSpikeGeneratorURI
        | _ => selectorRequestSpikeGeneratorURIName
      content }
  -- the two texts are all that the parser of this run knows
  let handNode : JsonNode := .object [("channel", .integral 0),
    ("data", .array [.object [("data", .textual "1"), ("time", .integral 5)]])]
  let distanceNode : JsonNode := .object [("channel", .integral 1), ("data", .array [])]
  let json : Json :=
    .ofParser fun text =>
      if text = handText then some handNode
      else if text = distanceText then some distanceNode
      else none
  let robotics : Robotics Bool :=
    { objects, json
      settings := { spikeDirectory := some "spikes", spikeInterval := none }
      requests := fun i =>
        { inputResource := .other (if i then 0 else 1) 0, domainName := 4, domainModel := 0
          simulationModel := 1, reformulationModel := 2, solutions := [] }
      depth := 0
      rounds := 0 }
  let containers : Bool → RoboticDataContainer := fun i =>
    if i then { channel := 0, values := [{ data := "1", time := 5 }] }
    else { channel := 1, values := [] }
  have name : "rawroboticdata" ≠ spikeResource := by decide
  have interval : (0 : ℤ) ≤ 10000 ∧ (0 : ℤ) + 10000 < 2 ^ 63 := by decide
  have channels : (-2 ^ 31 ≤ (0 : ℤ) ∧ (0 : ℤ) < 2 ^ 31) ∧ -2 ^ 31 ≤ (1 : ℤ) ∧ (1 : ℤ) < 2 ^ 31 := by
    decide
  have other : distanceText ≠ handText := by decide
  have parsedHand : json.parseOpt handText = some handNode := by simp [json, Json.ofParser]
  have parsedDistance : json.parseOpt distanceText = some distanceNode := by
    simp [json, Json.ofParser, other]
  have served : robotics.Served containers 0 := by
    -- the hypotheses are checked request by request
    refine ⟨fun i => ?_, rfl, interval.1, Int.le_refl 0, interval.2, fun container => ?_, ?_⟩
    · cases i with
      | true =>
        refine ⟨name, ⟨handText, handNode, _, hand, parsedHand, rfl, rfl, ?_⟩, channels.1⟩
        exact .cons ⟨.textual "1", .integral 5, rfl, rfl, rfl, rfl⟩ .nil
      | false =>
        exact ⟨name, ⟨distanceText, distanceNode, [], distance, parsedDistance, rfl, rfl, .nil⟩,
          channels.2⟩
    · obtain ⟨object, same⟩ := every container
      exact ⟨.other object 1, same, rfl⟩
    · exact ⟨⟨[2], 3, {}⟩, rfl, rfl⟩
  obtain ⟨steps, s, run, returned⟩ := exists_run_returned (C := Empty) (P := Empty) served true .nil
  exact ⟨robotics, containers, s, storedOnce_of_run served run, rfl, rfl, returned⟩

end Runs

end ThinkingUnderstanding
