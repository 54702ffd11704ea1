import ThinkingUnderstanding.Spike.RoboticRequests

/-!
# Decoding a robotic request

A robotic request is a JSON object with a channel and an array of data. `UnderstandRequestCritic`
checks that the channel is an integral number and the data an array, and then reads on without a
check: the lowest bits of a number that is out of range, a default for a value of another kind,
and a `null` for a member that is missing, which ends with an exception.

## Main definitions

* `JsonNode.datum`, `JsonNode.request` — what a request stands for, if it is one
* `DecodedExactly` — the contract of the critic
* `JsonNode.PassesChecks` — what the critic checks

## Main results

* `roboticData_eq_ok` — a datum that is one is decoded to itself
* `exists_apply_of_request` — so is a request
* `decodedExactly_iff` — the texts for which the contract is kept
-/

namespace ThinkingUnderstanding

namespace JsonNode

/-- The node is a value, neither an array nor an object. -/
def isScalar : JsonNode → Bool
  | array _ => false
  | object _ => false
  | _ => true

variable (json : Json)

/-- The datum that an element stands for: an object with a scalar `data`, taken as a text, and an
integral `time` that is a `Long`. -/
def datum (node : JsonNode) : Option RoboticData :=
  match node.get "data", node.get "time" with
  | some data, some (integral time) =>
      if data.isScalar ∧ -2 ^ 63 ≤ time ∧ time < 2 ^ 63 then some { data := json.asText data, time }
      else none
  | _, _ => none

/-- The container that a text stands for: an object with an integral `channel` that is an `Int`,
and an array `data` of data. -/
def request (node : JsonNode) : Option RoboticDataContainer :=
  match node.get "channel", node.get "data" with
  | some (integral channel), some (array elements) =>
      if -2 ^ 31 ≤ channel ∧ channel < 2 ^ 31 then
        (elements.mapM (datum json)).map fun values => { channel, values }
      else none
  | _, _ => none

/-- The channel is an integral number, and the data are an array. -/
def PassesChecks (node : JsonNode) : Prop :=
  ∃ channel elements, node.get "channel" = some (integral channel) ∧
    node.get "data" = some (array elements)

theorem eq_integral_of_isIntegralNumber {node : JsonNode}
    (integral_number : node.isIntegralNumber) : ∃ value, node = integral value := by
  cases node <;> first | exact ⟨_, rfl⟩ | cases integral_number

theorem eq_array_of_isArray {node : JsonNode} (is_array : node.isArray) :
    ∃ elements, node = array elements := by
  cases node <;> first | exact ⟨_, rfl⟩ | cases is_array

end JsonNode

section

variable {C P : Type} (objects : Objects) (json : Json) (new : RoboticDataContainer → Resource)

/-- The critic returns for the text: with a container of exactly what the text stands for as the
last result, and without a last result when it stands for none. -/
def DecodedExactly (text : String) (inputContext : ShortTermMemory C P) : Prop :=
  ∃ outputContext, UnderstandRequestCritic.apply objects json new inputContext = .ok outputContext ∧
    outputContext.lastResult = ((json.parseOpt text).bind (JsonNode.request json)).map new

end

variable {C P : Type} {objects : Objects} {json : Json} {new : RoboticDataContainer → Resource}
  {inputContext : ShortTermMemory C P} {text : String} {r : Resource} {node : JsonNode}

theorem lastResult_ofResources (resources : List Resource) :
    (ContextHelper.ofResources resources : ShortTermMemory C P).lastResult = none := rfl

theorem lastResult_ofLastResult (resources : List Resource) (lastResult : Resource) :
    (ContextHelper.ofLastResult resources lastResult : ShortTermMemory C P).lastResult =
      some lastResult := by
  obtain ⟨_, _, same⟩ :=
    (ContextHelper.ofResources resources : ShortTermMemory C P).exists_setLastResult_eq
      (some lastResult)
  rw [ContextHelper.ofLastResult, same]

/-- A datum is decoded to itself. -/
theorem roboticData_eq_ok {datum : RoboticData} (stands : node.datum json = some datum) :
    UnderstandRequestCritic.roboticData json node = .ok datum := by
  unfold JsonNode.datum at stands
  split at stands
  · next data time hasData hasTime =>
    split at stands
    · next exact_value =>
      obtain ⟨-, low, high⟩ := exact_value
      obtain rfl := Option.some.inj stands
      -- a time within the range of `Long` is read as itself
      rw [UnderstandRequestCritic.roboticData, hasData, hasTime]
      simp only [json.asLong_integral time low high]
    · cases stands
  · cases stands

theorem mapM_roboticData_eq_ok {elements : List JsonNode} {values : List RoboticData}
    (stand : elements.mapM (JsonNode.datum json) = some values) :
    elements.mapM (UnderstandRequestCritic.roboticData json) = .ok values := by
  induction elements generalizing values with
  | nil =>
    cases stand
    rfl
  | cons element rest ih =>
    rw [List.mapM_cons] at stand
    obtain ⟨datum, first, stand⟩ := Option.bind_eq_some_iff.mp stand
    obtain ⟨data, others, same⟩ := Option.bind_eq_some_iff.mp stand
    obtain rfl := Option.some.inj same
    rw [List.mapM_cons, roboticData_eq_ok first, ih others]
    rfl

section

variable (given : inputContext.lastResult = some r)
  (holds : objects.contentOf r = .knowledgeString text)

include given holds

/-- A text that does not parse, or does not pass the checks, is left without a result. -/
theorem apply_of_not_passesChecks
    (rejected : ∀ node, json.parseOpt text = some node → ¬ node.PassesChecks) :
    UnderstandRequestCritic.apply objects json new inputContext =
      .ok (ContextHelper.ofResources []) := by
  rw [UnderstandRequestCritic.apply, given]
  simp only [holds]
  cases parsed : json.parseOpt text with
  | none => rfl
  | some node =>
    have fails := rejected node parsed
    cases hasChannel : node.get "channel" with
    | none => simp only [hasChannel]
    | some channel =>
      cases hasData : node.get "data" with
      | none => simp only [hasChannel, hasData]
      | some data =>
        simp only [hasChannel, hasData]
        split
        case isFalse => rfl
        case isTrue both =>
          rw [Bool.and_eq_true] at both
          obtain ⟨_, rfl⟩ := JsonNode.eq_integral_of_isIntegralNumber both.1
          obtain ⟨_, rfl⟩ := JsonNode.eq_array_of_isArray both.2
          exact absurd ⟨_, _, hasChannel, hasData⟩ fails

/-- A text that passes the checks is decoded, or ends with an exception. -/
theorem apply_of_passesChecks (parsed : json.parseOpt text = some node) {channel : ℤ}
    {elements : List JsonNode} (hasChannel : node.get "channel" = some (.integral channel))
    (hasData : node.get "data" = some (.array elements)) :
    UnderstandRequestCritic.apply objects json new inputContext =
      (elements.mapM (UnderstandRequestCritic.roboticData json)).map fun roboticData =>
        let roboticDataContainer :=
          new { channel := json.asInt (.integral channel), values := roboticData }
        ContextHelper.ofLastResult [roboticDataContainer] roboticDataContainer := by
  rw [UnderstandRequestCritic.apply, given]
  simp only [holds, parsed, hasChannel, hasData]
  change (elements.mapM (UnderstandRequestCritic.roboticData json) >>= _) = _
  cases elements.mapM (UnderstandRequestCritic.roboticData json) <;> rfl

/-- A request is decoded to the container it stands for. -/
theorem exists_apply_of_request (new : RoboticDataContainer → Resource)
    {container : RoboticDataContainer}
    (parsed : json.parseOpt text = some node) (stands : node.request json = some container) :
    ∃ outputContext,
      UnderstandRequestCritic.apply objects json new inputContext = .ok outputContext ∧
        outputContext.lastResult = some (new container) := by
  unfold JsonNode.request at stands
  split at stands
  · next channel elements hasChannel hasData =>
    split at stands
    · next exact_value =>
      obtain ⟨low, high⟩ := exact_value
      obtain ⟨values, stand, rfl⟩ := Option.map_eq_some_iff.mp stands
      rw [apply_of_passesChecks given holds parsed hasChannel hasData,
        mapM_roboticData_eq_ok stand, json.asInt_integral channel low high]
      exact ⟨_, rfl, lastResult_ofLastResult _ _⟩
    · cases stands
  · cases stands

/-- The critic keeps its contract for the texts that are requests, and for those that do not pass
its checks; it breaks it for all that pass and are no requests. -/
theorem decodedExactly_iff : DecodedExactly objects json new text inputContext ↔
    ∀ node, json.parseOpt text = some node → node.PassesChecks → (node.request json).isSome := by
  constructor
  · rintro ⟨outputContext, applied, result⟩ node parsed ⟨channel, elements, hasChannel, hasData⟩
    rw [apply_of_passesChecks given holds parsed hasChannel hasData] at applied
    cases decoded : elements.mapM (UnderstandRequestCritic.roboticData json) with
    | error message =>
      rw [decoded] at applied
      cases applied
    | ok values =>
      -- there is a last result, so the text has to stand for a container
      rw [decoded] at applied
      obtain rfl := Except.ok.inj applied
      rw [parsed, Option.bind_some, lastResult_ofLastResult] at result
      obtain ⟨container, stands, -⟩ := Option.map_eq_some_iff.mp result.symm
      rw [stands]
      rfl
  · intro condition
    cases stands : (json.parseOpt text).bind (JsonNode.request json) with
    | some container =>
      obtain ⟨node, parsed, requested⟩ := Option.bind_eq_some_iff.mp stands
      obtain ⟨outputContext, applied, result⟩ :=
        exists_apply_of_request given holds new parsed requested
      exact ⟨outputContext, applied, by rw [result, stands]; rfl⟩
    | none =>
      -- what passes the checks is a request, so this text does not pass them
      refine ⟨_, apply_of_not_passesChecks given holds fun node parsed passes => ?_, ?_⟩
      · obtain ⟨container, requested⟩ := Option.isSome_iff_exists.mp (condition node parsed passes)
        rw [parsed, Option.bind_some, requested] at stands
        cases stands
      · rw [lastResult_ofResources, stands]
        rfl

end

/-! ### A channel that is out of range -/

/-- A knowledge string with a text, and a container at another place. -/
def stringObjects (text : String) (container : RoboticDataContainer) : Objects where
  name _ := ""
  content object :=
    if object = 0 then .knowledgeString text
    else .roboticDataContainer container

/-- The context of a request with a text. -/
def stringContext : ShortTermMemory ConceptRef PhraseRef where
  lastResult := some (.other 0 0)

/-- A text of a request without data, for the channel `2 ^ 32`. -/
def outOfRange : String := "\x7b\"channel\": 4294967296, \"data\": []\x7d"

/-- A text of a request with two data. -/
def twoData : String :=
  "\x7b\"channel\": 1, \"data\": [\x7b\"data\": \"7\", \"time\": 19\x7d, " ++
    "\x7b\"data\": true, \"time\": 20\x7d]\x7d"

/-- What it is parsed as. -/
def twoDataNode : JsonNode :=
  .object [("channel", .integral 1),
    ("data", .array [.object [("data", .textual "7"), ("time", .integral 19)],
      .object [("data", .boolean true), ("time", .integral 20)]])]

/-- A library that parses the two texts. -/
def twoTexts : Json :=
  .ofParser fun text =>
    if text = outOfRange then
      some (.object [("channel", .integral 4294967296), ("data", .array [])])
    else if text = twoData then some twoDataNode
    else none

/-- The container of the request with two data. -/
def twoDataContainer : RoboticDataContainer where
  channel := 1
  values := [{ data := "7", time := 19 }, { data := "true", time := 20 }]

/-- The resource of a container, which is at a place of its own if it is that of the two data. -/
def newContainer (container : RoboticDataContainer) : Resource :=
  .other (if container = twoDataContainer then 1 else 2) 1

/-- The request with two data is decoded to its container. -/
theorem twoData_decoded :
    DecodedExactly (stringObjects twoData twoDataContainer) twoTexts newContainer twoData
        stringContext ∧
      ((twoTexts.parseOpt twoData).bind (JsonNode.request twoTexts)).map newContainer =
        some (.other 1 1) := by
  have parses : twoTexts.parseOpt twoData = some twoDataNode := by
    have other : twoData ≠ outOfRange := by decide
    simp [twoTexts, Json.ofParser, other]
  have stands : twoDataNode.request twoTexts = some twoDataContainer := rfl
  refine ⟨(decodedExactly_iff (r := .other 0 0) rfl rfl).mpr ?_, ?_⟩
  · intro node parsed _
    obtain rfl := Option.some.inj (parses.symm.trans parsed)
    exact Option.isSome_of_mem stands
  · rw [parses, Option.bind_some, stands, Option.map_some, newContainer, if_pos rfl]

/-- The request for the channel `2 ^ 32` is decoded to one for the channel `0`. -/
theorem outOfRange_truncated :
    ¬ DecodedExactly (stringObjects outOfRange twoDataContainer) twoTexts newContainer outOfRange
      stringContext := by
  rintro ⟨outputContext, applied, result⟩
  have decoded : UnderstandRequestCritic.apply (stringObjects outOfRange twoDataContainer) twoTexts
      newContainer stringContext =
        .ok (ContextHelper.ofLastResult [newContainer { channel := 0, values := [] }]
          (newContainer { channel := 0, values := [] })) := rfl
  obtain rfl := Except.ok.inj (decoded.symm.trans applied)
  rw [lastResult_ofLastResult] at result
  cases result

end ThinkingUnderstanding
