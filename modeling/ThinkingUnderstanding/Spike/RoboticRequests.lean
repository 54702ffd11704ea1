import ThinkingUnderstanding.LifeCycle.Conversation
import ThinkingUnderstanding.Spike.SpikeGenerator

/-!
# Robotic requests

A robotic request carries a JSON text with a channel and data. Its life cycle has the text made
into a container, has two critics look at the channel of the container, each of which may ask
for the spike generator, and returns. The requests are handled by life cycles of their own,
which share the actors of the actions.

An actor handles one message at a time, and a life cycle waits for each answer, so a run is a
sequence of questions that are answered, in any order of the life cycles. Only the spike
generator has a state. Messages and answers are taken to arrive in time.

New objects are not created in a heap here: an answer may refer to any object with the content
it is created with. The texts `JsonMethods` parses, and what Jackson reads the values of nodes as,
are parameters.

## Main definitions

* `JsonNode`, `Json` — parsed texts
* `Objects` — the content of the objects that are referred to
* `UnderstandRequestCritic.apply`, `SpikeClassifierCritic.classify`, `DoNotUnderstandManager.apply`
  — the actions
* `RoboticDataRequest` — a request, and the models that are loaded for it
* `Robotics.Step` — one question of one life cycle is answered

-/

namespace ThinkingUnderstanding

open Math Semantics

/-- `JsonNode`. -/
inductive JsonNode
  | null
  | boolean (value : Bool)
  | integral (value : ℤ)
  /-- Any other number, as its text. -/
  | decimal (text : String)
  | textual (value : String)
  | array (elements : List JsonNode)
  | object (fields : List (String × JsonNode))

namespace JsonNode

/-- `get(fieldName)`. -/
def get (node : JsonNode) (fieldName : String) : Option JsonNode :=
  match node with
  | object fields => (fields.find? fun field => field.1 = fieldName).map Prod.snd
  | _ => none

/-- `isIntegralNumber`. -/
def isIntegralNumber : JsonNode → Bool
  | integral _ => true
  | _ => false

/-- `isArray`. -/
def isArray : JsonNode → Bool
  | array _ => true
  | _ => false

/-- `elements()`. -/
def elements : JsonNode → List JsonNode
  | array elements => elements
  | object fields => fields.map Prod.snd
  | _ => []

end JsonNode

/-- The libraries that read texts. A number that is an `Int`, or a `Long`, is read as itself. What
another node is read as, and what a value is as a text, is up to them. -/
structure Json where
  /-- `JsonMethods.parseOpt`, followed by `JsonMethods.asJsonNode`. -/
  parseOpt : String → Option JsonNode
  /-- `asInt()`. -/
  asInt : JsonNode → ℤ
  /-- `asLong()`. -/
  asLong : JsonNode → ℤ
  /-- `asText()`. -/
  asText : JsonNode → String
  asInt_integral : ∀ value, -2 ^ 31 ≤ value → value < 2 ^ 31 → asInt (.integral value) = value
  asLong_integral : ∀ value, -2 ^ 63 ≤ value → value < 2 ^ 63 → asLong (.integral value) = value

/-- Numbers are read by their lowest bits, and a node that has no value as an empty text. -/
def Json.ofParser (parseOpt : String → Option JsonNode) : Json where
  parseOpt := parseOpt
  asInt
    | .integral value => Int.bmod value (2 ^ 32)
    | _ => 0
  asLong
    | .boolean value => if value then 1 else 0
    | .integral value => Int.bmod value (2 ^ 64)
    | _ => 0
  asText
    | .null => "null"
    | .boolean value => if value then "true" else "false"
    | .integral value => toString value
    | .decimal text => text
    | .textual value => value
    | .array _ => ""
    | .object _ => ""
  asInt_integral _ _ _ := Int.bmod_eq_of_le (by omega) (by omega)
  asLong_integral _ _ _ := Int.bmod_eq_of_le (by omega) (by omega)

/-- What the classes of resources hold that a robotic request is made of. -/
inductive Content
  | knowledgeString (value : String)
  | roboticDataContainer (container : RoboticDataContainer)
  | unknown
  deriving DecidableEq

/-- The objects that are referred to, and their URIs. -/
structure Objects where
  /-- `KnowledgeURI.name`. -/
  name : UriRef → String
  content : ℕ → Content

/-- The content of a resource. -/
def Objects.contentOf (objects : Objects) : Resource → Content
  | .other object _ => objects.content object
  | _ => .unknown

/-- `Constant.SPIKE_RESOURCE`. -/
def spikeResource : String := "spike-resource"

/-- `Constant.SELECTOR_REQUEST_SPIKE_GENERATOR_URI`. -/
def selectorRequestSpikeGeneratorURI : String :=
  "tu.coreservice.action.way2think.spike.SpikeGeneratorWay2Think"

/-- `Constant.SELECTOR_REQUEST_SPIKE_GENERATOR_URI_NAME`. -/
def selectorRequestSpikeGeneratorURIName : String := "SpikeGenerator"

/-- The resource is a new `RoboticDataContainer`. -/
def Objects.IsContainer (objects : Objects) (container : RoboticDataContainer) (r : Resource) :
    Prop :=
  objects.contentOf r = .roboticDataContainer container ∧ objects.name r.uri = spikeResource

/-- The request is a new `SelectorRequest` for the spike generator. -/
def Objects.AsksForGenerator (objects : Objects) (request : SelectorRequest) : Prop :=
  request.resourceURIList.map objects.name = [selectorRequestSpikeGeneratorURI] ∧
    objects.name request.uri = selectorRequestSpikeGeneratorURIName

section Actions

variable {C P : Type} (objects : Objects)

/-- `ShortTermMemory.findByName`. -/
def ShortTermMemory.findByName (ctx : ShortTermMemory C P) (name : String) : Option Resource :=
  match ctx.frames.keys.filter fun uri => objects.name uri = name with
  | uri :: _ => ctx.frames.get? uri
  | [] => none

/-- One datum of a request. -/
def UnderstandRequestCritic.roboticData (json : Json) (jsonNode : JsonNode) :
    Except String RoboticData :=
  match jsonNode.get "data", jsonNode.get "time" with
  | some data, some time => .ok { data := json.asText data, time := json.asLong time }
  | _, _ => .error "java.lang.NullPointerException"

/-- `UnderstandRequestCritic.apply`; `new` is the container that is created. -/
def UnderstandRequestCritic.apply (json : Json) (new : RoboticDataContainer → Resource)
    (inputContext : ShortTermMemory C P) : Except String (ShortTermMemory C P) :=
  match inputContext.lastResult with
  | some r =>
      match objects.contentOf r with
      | .knowledgeString value =>
          match json.parseOpt value with
          | some parsedJson =>
              match parsedJson.get "channel", parsedJson.get "data" with
              | some channel, some data =>
                  if channel.isIntegralNumber && data.isArray then do
                    let roboticData ← data.elements.mapM (roboticData json)
                    let roboticDataContainer :=
                      new { channel := json.asInt channel, values := roboticData }
                    return ContextHelper.ofLastResult [roboticDataContainer] roboticDataContainer
                  else .ok (ContextHelper.ofResources [])
              | _, _ => .ok (ContextHelper.ofResources [])
          | none => .ok (ContextHelper.ofResources [])
      | _ => .error "scala.MatchError"
  | none => .ok (ContextHelper.ofResources [])

/-- The container that a context has under the name `SPIKE_RESOURCE`. -/
def ShortTermMemory.container (ctx : ShortTermMemory C P) : Option RoboticDataContainer :=
  (ctx.findByName objects spikeResource).bind fun r =>
    match objects.contentOf r with
    | .roboticDataContainer container => some container
    | _ => none

/-- `SpikeClassifierCritic.classify`; `new` is the selector request that is created. -/
def SpikeClassifierCritic.classify (new : SelectorRequest) (inputContext : ShortTermMemory C P)
    (channel : ℤ) : ShortTermMemory C P :=
  let result := ContextHelper.ofResources []
  match inputContext.container objects with
  | some roboticDataContainer =>
      if roboticDataContainer.channel = channel then
        result.setLastResult (some (.selectorRequest new))
      else result
  | none => result

/-- `HandSpikeClassifierCritic.HAND_CHANNEL_NUMBER`. -/
def handChannelNumber : ℤ := 0

/-- `DistanceSpikeClassifierCritic.DISTANCE_CHANNEL_NUMBER`. -/
def distanceChannelNumber : ℤ := 1

/-- `DoNotUnderstandManager.apply`; `new` is the selector request that is created. -/
def DoNotUnderstandManager.apply (new : SelectorRequest) (inputContext : ShortTermMemory C P) :
    ShortTermMemory C P :=
  if inputContext.lastError.isSome then
    ContextHelper.ofLastResult [] (.selectorRequest new)
  else if inputContext.notUnderstoodConcepts ≠ [] ∨ inputContext.notUnderstoodPhrases ≠ [] ∨
      inputContext.resultToReport.size > 0 ∨ inputContext.solutionsToReport.size > 0 then
    ContextHelper.createReflectiveContext (.selectorRequest new)
  else ContextHelper.ofResources []

end Actions

/-! ### Life cycles that share actors -/

/-- `RoboticDataRequest`, with the models that the memory holds for its domain. -/
structure RoboticDataRequest where
  inputResource : Resource
  domainName : UriRef
  domainModel : NetworkRef
  simulationModel : NetworkRef
  reformulationModel : NetworkRef
  solutions : List ℕ

/-- The life cycles of some requests, and what they read. -/
structure Robotics (ι : Type) where
  objects : Objects
  json : Json
  settings : SpikeGenerator.Settings
  requests : ι → RoboticDataRequest
  /-- Bounds for the runs of a life cycle. -/
  depth : ℕ
  rounds : ℕ

/-- The spike generator, the clock, and what each life cycle has heard. -/
structure RoboticState (ι C P : Type) where
  writer : SpikeGenerator.Writer := {}
  now : ℤ
  heard : ι → List (Reply C P) := fun _ => []

namespace Robotics

variable {ι C P : Type} (robotics : Robotics ι)

/-- The tables of `KBAdapter`, and actors that answer from a script. Nothing is stored under
`selfReflectiveCritics`, so the critics are the default ones. -/
def environment : Environment (Script C P) C P where
  goalResourceMap := KBAdapter.goalResourceMap
  uriName := robotics.objects.name
  getReflectiveCritics _ := .ok KBAdapter.defaultSelfReflectiveCritics
  act := Script.act

/-- The memory, from which only the models of the request are read. -/
def memory (request : RoboticDataRequest) : ModelMemory (Script C P) where
  domainModel _ := pure request.domainModel
  simulationModel _ := pure request.simulationModel
  reformulationModel _ := pure request.reformulationModel
  solutions _ := pure request.solutions
  saveModel _ _ := pure ()
  nodes _ _ := []
  setNodes _ _ world := world

/-- `ThinkingLifeCycleMinimal.apply` on a request. -/
def lifeCycle [DecidableEq C] [DecidableEq P] (i : ι) :
    Program (Script C P) C P (ShortTermMemory C P) :=
  applyRequest (memory (robotics.requests i)) robotics.environment (robotics.depth + 1)
    (robotics.rounds + 1) .roboticDataRequest
    ⟨(robotics.requests i).inputResource, (robotics.requests i).domainName⟩

/-- The answer that an actor gives for the result of `apply`. -/
def answerOf : Except String (ShortTermMemory C P) → Reply C P
  | .ok ctx => .new ctx
  | .error message => { answer := .error message }

/-- The readings of the clock while a file is validated. The clock is not set back, and the
interval of a new file ends within `Long`. -/
structure ClockReads (now : ℤ) (clock : SpikeGenerator.Clock) : Prop where
  running : now ≤ clock.checked
  ordered : clock.checked ≤ clock.created
  bounded : clock.created + robotics.settings.interval < 2 ^ 63

/-- An actor handles a message: its name, the context, the generator and the clock before and
after, and the answer. -/
inductive Handles (name : String) (ctx : ShortTermMemory C P) (w : SpikeGenerator.Writer) (now : ℤ) :
    Reply C P → SpikeGenerator.Writer → ℤ → Prop
  | understand (named : name = "tu.coreservice.action.critic.robotic.UnderstandRequestCritic")
      (new : RoboticDataContainer → Resource)
      (created : ∀ container, robotics.objects.IsContainer container (new container)) :
      Handles name ctx w now
        (answerOf (UnderstandRequestCritic.apply robotics.objects robotics.json new ctx)) w now
  | hand (named : name = "tu.coreservice.action.critic.robotic.classifier.HandSpikeClassifierCritic")
      (new : SelectorRequest) (created : robotics.objects.AsksForGenerator new) :
      Handles name ctx w now
        (.new (SpikeClassifierCritic.classify robotics.objects new ctx handChannelNumber)) w now
  | distance
      (named : name = "tu.coreservice.action.critic.robotic.classifier.DistanceSpikeClassifierCritic")
      (new : SelectorRequest) (created : robotics.objects.AsksForGenerator new) :
      Handles name ctx w now
        (.new (SpikeClassifierCritic.classify robotics.objects new ctx distanceChannelNumber)) w now
  | generate (named : name = selectorRequestSpikeGeneratorURI)
      (clock : SpikeGenerator.Clock) (reads : robotics.ClockReads now clock) :
      Handles name ctx w now
        (match (SpikeGenerator.apply robotics.settings clock
            (ctx.container robotics.objects)).run w with
          | .ok _ _ => .new (ContextHelper.ofResources [])
          | .error message _ => { answer := .error message })
        (finalState ((SpikeGenerator.apply robotics.settings clock
          (ctx.container robotics.objects)).run w))
        clock.created
  | manage (named : name = "tu.coreservice.action.critic.manager.DoNotUnderstandManager")
      (new : SelectorRequest) :
      Handles name ctx w now (.new (DoNotUnderstandManager.apply new ctx)) w now

variable [DecidableEq C] [DecidableEq P]

/-- What the life cycle of a request does next. -/
def next (s : RoboticState ι C P) (i : ι) : Conversation C P :=
  conversation (robotics.lifeCycle i) (s.heard i)

/-- A life cycle that waits hears the answer of the actor. -/
inductive Step [DecidableEq ι] (i : ι) (s : RoboticState ι C P) : RoboticState ι C P → Prop
  | answered {name : String} {ctx : ShortTermMemory C P} {reply : Reply C P}
      {w : SpikeGenerator.Writer} {now : ℤ} (waiting : robotics.next s i = .waiting name ctx)
      (handled : robotics.Handles name ctx s.writer s.now reply w now) :
      Step i s { writer := w, now, heard := Function.update s.heard i (s.heard i ++ [reply]) }

/-- A run: the life cycles that are answered, one after another. -/
inductive Run [DecidableEq ι] (s : RoboticState ι C P) : List ι → RoboticState ι C P → Prop
  | nil : Run s [] s
  | step {order : List ι} {t u : RoboticState ι C P} {i : ι} (run : Run s order t)
      (step : robotics.Step i t u) : Run s (order ++ [i]) u

end Robotics

end ThinkingUnderstanding
