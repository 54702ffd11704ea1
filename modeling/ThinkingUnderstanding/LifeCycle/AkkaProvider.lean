import Mathlib.Data.Finset.Basic
import ThinkingUnderstanding.Math.InsertionMap

/-!
# The provider of actors

Every action of a workflow runs in an actor. The provider creates an actor for a class when it is
asked for the first time, and gives the same one to those who ask later. It takes one message after
another, while at any time someone may ask and an actor may stop. It learns of a stopped actor from
a message, which may come late, and meanwhile it gives away an actor that has stopped.

When a class cannot be loaded, then the provider fails and is restarted: it forgets all actors, and
they are stopped.

## Main definitions

* `ActorSystem` — the provider, its messages and the actors
* `AkkaProvider.step` — a question, a message that is taken, or an actor that stops
* `AkkaProvider.run` — any number of them, in any order
* `ActorSystem.Sound` — what holds all the time

## Main results

* `AkkaProvider.livingOnce_run` — no class has two living actors
* `AkkaProvider.answers_while_living` — as long as an actor lives everyone gets it
* `AkkaProvider.answers_in_order` — no question is lost or answered twice
-/

namespace ThinkingUnderstanding

/-- The messages that the provider gets. -/
inductive ProviderMessage
  | find (asker : ℕ) (className : String)
  | terminated (ref : ℕ)
deriving DecidableEq

/-- The provider, its messages, and the actors. -/
structure ActorSystem where
  actorMap : Math.InsertionMap String ℕ := .empty
  mailbox : List ProviderMessage := []
  /-- The classes of all actors. An actor is known by its place. -/
  created : List String := []
  living : Finset ℕ := ∅
  /-- Actors that have stopped, when their messages are not in the mailbox yet. -/
  notices : List ℕ := []
  /-- Who has asked for a class, and the actor. There is none when the provider has failed, and
  then the asker waits in vain. -/
  answers : List (ℕ × String × Option ℕ) := []

/-- What happens next. -/
inductive ProviderEvent
  /-- `AkkaProvider.find` is called. -/
  | find (asker : ℕ) (className : String)
  | receive
  | stop (ref : ℕ)
  /-- The message of a stopped actor comes into the mailbox. -/
  | notify (ref : ℕ)
deriving DecidableEq

namespace AkkaProvider

/-- `AkkaProvider.getOrCreateActor`, unless there is an exception. -/
def getOrCreateActor (loadable : String → Bool) (s : ActorSystem) (className : String) :
    Option (ℕ × ActorSystem) :=
  match s.actorMap.get? className with
  | some actor => some (actor, s)
  | none =>
      if loadable className then
        let actor := s.created.length
        some (actor, { s with
          actorMap := s.actorMap.insert className actor
          created := s.created ++ [className]
          living := insert actor s.living })
      else none

/-- After an exception the provider starts anew. Its children are not watched any more, and they
are stopped before. -/
def restart (s : ActorSystem) : ActorSystem :=
  { s with actorMap := .empty, living := ∅, notices := [] }

/-- `AkkaProvider.receive`. -/
def receive (loadable : String → Bool) (s : ActorSystem) : ProviderMessage → ActorSystem
  | .find asker className =>
      match getOrCreateActor loadable s className with
      | some (actor, s) => { s with answers := s.answers ++ [(asker, className, some actor)] }
      | none => { restart s with answers := s.answers ++ [(asker, className, none)] }
  | .terminated ref => { s with actorMap := s.actorMap.filter fun entry => entry.2 ≠ ref }

/-- What an event does. -/
def step (loadable : String → Bool) (s : ActorSystem) : ProviderEvent → ActorSystem
  | .find asker className => { s with mailbox := s.mailbox ++ [.find asker className] }
  | .receive =>
      match s.mailbox with
      | [] => s
      | message :: mailbox => receive loadable { s with mailbox } message
  | .stop ref =>
      if ref ∈ s.living then
        { s with living := s.living.erase ref, notices := s.notices ++ [ref] }
      else s
  | .notify ref =>
      if ref ∈ s.notices then
        { s with notices := s.notices.erase ref, mailbox := s.mailbox ++ [.terminated ref] }
      else s

/-- The system after some events. -/
def run (loadable : String → Bool) (events : List ProviderEvent) : ActorSystem :=
  events.foldl (step loadable) {}

end AkkaProvider

namespace ActorSystem

/-- It is known that the actor has stopped, but the provider has not been told. -/
def Untold (s : ActorSystem) (ref : ℕ) : Prop :=
  ref ∈ s.notices ∨ .terminated ref ∈ s.mailbox

/-- What holds of the system all the time. -/
structure Sound (loadable : String → Bool) (s : ActorSystem) : Prop where
  mapped : ∀ name ref, s.actorMap.get? name = some ref →
    s.created[ref]? = some name ∧ (ref ∈ s.living ∨ s.Untold ref)
  kept : ∀ ref ∈ s.living, ∃ name, s.created[ref]? = some name ∧ s.actorMap.get? name = some ref
  untold : ∀ ref, s.Untold ref → ref < s.created.length ∧ ref ∉ s.living
  loaded : ∀ name ∈ s.created, loadable name = true

variable {loadable : String → Bool} {s : ActorSystem} {ref : ℕ} {name : String}

theorem Sound.lt_length_of_living (sound : s.Sound loadable) (living : ref ∈ s.living) :
    ref < s.created.length := by
  obtain ⟨name, created, -⟩ := sound.kept ref living
  exact (List.getElem?_eq_some_iff.mp created).1

/-- A message that has been put behind the others. -/
theorem Sound.of_find (sound : s.Sound loadable) (asker : ℕ) (className : String) :
    Sound loadable { s with mailbox := s.mailbox ++ [.find asker className] } := by
  have same : ∀ ref, Untold { s with mailbox := s.mailbox ++ [.find asker className] } ref ↔
      s.Untold ref := by
    intro ref
    simp [Untold]
  refine ⟨fun name ref mapped => ?_, sound.kept, fun ref untold => ?_, sound.loaded⟩
  · rw [same]
    exact sound.mapped name ref mapped
  · exact sound.untold ref ((same ref).mp untold)

/-- An actor that stops. -/
theorem Sound.of_stop (sound : s.Sound loadable) (living : ref ∈ s.living) :
    Sound loadable { s with living := s.living.erase ref, notices := s.notices ++ [ref] } := by
  have same : ∀ other, Untold { s with living := s.living.erase ref, notices := s.notices ++ [ref] }
      other ↔ other = ref ∨ s.Untold other := by
    intro other
    simp only [Untold, List.mem_append, List.mem_singleton]
    tauto
  refine ⟨fun name other mapped => ?_, fun other member => ?_, fun other untold => ?_, sound.loaded⟩
  · obtain ⟨created, lives⟩ := sound.mapped name other mapped
    rw [same, Finset.mem_erase]
    tauto
  · exact sound.kept other (Finset.mem_of_mem_erase member)
  · rcases (same other).mp untold with rfl | untold
    · exact ⟨sound.lt_length_of_living living, Finset.notMem_erase other s.living⟩
    · obtain ⟨below, dead⟩ := sound.untold other untold
      exact ⟨below, fun member => dead (Finset.mem_of_mem_erase member)⟩

/-- A notice that is put into the mailbox. -/
theorem Sound.of_notify (sound : s.Sound loadable) (noticed : ref ∈ s.notices) :
    Sound loadable { s with
      notices := s.notices.erase ref, mailbox := s.mailbox ++ [.terminated ref] } := by
  have same : ∀ other, Untold { s with
      notices := s.notices.erase ref, mailbox := s.mailbox ++ [.terminated ref] } other ↔
        s.Untold other := by
    intro other
    simp only [Untold, List.mem_append, List.mem_singleton, ProviderMessage.terminated.injEq]
    by_cases here : other = ref
    · simp [here, noticed]
    · simp [here, List.mem_erase_of_ne here]
  refine ⟨fun name other mapped => ?_, sound.kept, fun other untold => ?_, sound.loaded⟩
  · rw [same]
    exact sound.mapped name other mapped
  · exact sound.untold other ((same other).mp untold)

/-- The answers have no part in it. -/
theorem Sound.of_answers (sound : s.Sound loadable) (answers : List (ℕ × String × Option ℕ)) :
    Sound loadable { s with answers } :=
  ⟨sound.mapped, sound.kept, sound.untold, sound.loaded⟩

/-- What is known of an actor that the provider gives. -/
theorem Sound.getOrCreateActor (sound : s.Sound loadable) {s' : ActorSystem}
    (given : AkkaProvider.getOrCreateActor loadable s name = some (ref, s')) :
    s'.Sound loadable ∧ s'.created[ref]? = some name ∧ loadable name = true ∧
      s'.mailbox = s.mailbox ∧ s'.answers = s.answers := by
  rw [AkkaProvider.getOrCreateActor] at given
  split at given
  case h_1 actor known =>
    cases given
    obtain ⟨created, -⟩ := sound.mapped name ref known
    exact ⟨sound, created, sound.loaded name (List.mem_of_getElem? created), rfl, rfl⟩
  case h_2 unknown =>
    split_ifs at given with known
    cases given
    have old : ∀ other < s.created.length, (s.created ++ [name])[other]? = s.created[other]? :=
      fun other below => List.getElem?_append_left below
    have new : (s.created ++ [name])[s.created.length]? = some name := List.getElem?_concat_length
    refine ⟨⟨fun other ref mapped => ?_, fun ref living => ?_, fun ref untold => ?_, ?_⟩, new,
      known, rfl, rfl⟩
    · dsimp only at mapped ⊢
      rw [Math.InsertionMap.get?_insert] at mapped
      split_ifs at mapped with same
      · cases mapped
        subst same
        exact ⟨new, Or.inl (Finset.mem_insert_self ..)⟩
      · obtain ⟨created, lives⟩ := sound.mapped other ref mapped
        rw [old ref (List.getElem?_eq_some_iff.mp created).1]
        exact ⟨created, lives.imp_left Finset.mem_insert_of_mem⟩
    · dsimp only at living ⊢
      rcases Finset.mem_insert.mp living with rfl | living
      · exact ⟨name, new, by rw [Math.InsertionMap.get?_insert, if_pos rfl]⟩
      · obtain ⟨other, created, mapped⟩ := sound.kept ref living
        have different : other ≠ name := by
          rintro rfl
          rw [unknown] at mapped
          cases mapped
        refine ⟨other, ?_, by rw [Math.InsertionMap.get?_insert, if_neg different, mapped]⟩
        rw [old ref (sound.lt_length_of_living living), created]
    · obtain ⟨below, dead⟩ := sound.untold ref untold
      rw [List.length_append, Finset.mem_insert, not_or]
      exact ⟨by omega, below.ne, dead⟩
    · intro other member
      rcases List.mem_append.mp member with old | new
      · exact sound.loaded other old
      · exact List.mem_singleton.mp new ▸ known

/-- A restart leaves no actor. -/
theorem Sound.restart (sound : s.Sound loadable) : (AkkaProvider.restart s).Sound loadable := by
  refine ⟨fun name ref mapped => (nomatch mapped), fun ref living => (nomatch living),
    fun ref untold => ?_, sound.loaded⟩
  rcases untold with noticed | message
  · cases noticed
  · exact ⟨(sound.untold ref (Or.inr message)).1, Finset.notMem_empty ref⟩

/-- A question is taken from the mailbox. -/
theorem Sound.of_mailbox {asker : ℕ} {mailbox : List ProviderMessage} (sound : s.Sound loadable)
    (first : s.mailbox = .find asker name :: mailbox) : Sound loadable { s with mailbox } := by
  have same : ∀ ref, Untold { s with mailbox } ref ↔ s.Untold ref := by
    intro ref
    simp [Untold, first]
  refine ⟨fun name ref mapped => ?_, sound.kept, fun ref untold => ?_, sound.loaded⟩
  · rw [same]
    exact sound.mapped name ref mapped
  · exact sound.untold ref ((same ref).mp untold)

/-- The provider takes a message from the mailbox. -/
theorem Sound.receive {message : ProviderMessage} {mailbox : List ProviderMessage}
    (sound : s.Sound loadable) (first : s.mailbox = message :: mailbox) :
    (AkkaProvider.receive loadable { s with mailbox } message).Sound loadable := by
  cases message with
  | find asker className =>
    have rest := sound.of_mailbox first
    rw [AkkaProvider.receive]
    split
    case h_1 actor s' given => exact (rest.getOrCreateActor given).1.of_answers _
    case h_2 => exact rest.restart.of_answers _
  | terminated ref =>
    have told : ∀ other, s.Untold other ↔ other = ref ∨ Untold { s with mailbox } other := by
      intro other
      simp only [Untold, first, List.mem_cons, ProviderMessage.terminated.injEq]
      tauto
    have left_ : ∀ {name other}, (s.actorMap.filter fun entry => entry.2 ≠ ref).get? name =
        some other ↔ s.actorMap.get? name = some other ∧ other ≠ ref := by
      intro name other
      simp [Math.InsertionMap.get?_eq_some_iff, Math.InsertionMap.filter]
    have dead := (sound.untold ref ((told ref).mpr (Or.inl rfl))).2
    refine ⟨fun name other mapped => ?_, fun other living => ?_, fun other untold => ?_,
      sound.loaded⟩
    · obtain ⟨mapped, apart⟩ := left_.mp mapped
      obtain ⟨created, lives⟩ := sound.mapped name other mapped
      refine ⟨created, lives.imp_right fun untold => ?_⟩
      exact ((told other).mp untold).resolve_left apart
    · obtain ⟨name, created, mapped⟩ := sound.kept other living
      exact ⟨name, created, left_.mpr ⟨mapped, fun same => dead (same ▸ living)⟩⟩
    · exact sound.untold other ((told other).mpr (Or.inr untold))

/-- Every event keeps the system sound. -/
theorem Sound.step (sound : s.Sound loadable) (event : ProviderEvent) :
    (AkkaProvider.step loadable s event).Sound loadable := by
  cases event with
  | find asker className => exact sound.of_find asker className
  | receive =>
    rw [AkkaProvider.step]
    split
    case h_1 => exact sound
    case h_2 message mailbox first => exact sound.receive first
  | stop ref =>
    rw [AkkaProvider.step]
    split_ifs with living
    · exact sound.of_stop living
    · exact sound
  | notify ref =>
    rw [AkkaProvider.step]
    split_ifs with noticed
    · exact sound.of_notify noticed
    · exact sound

theorem Sound.foldl (sound : s.Sound loadable) (events : List ProviderEvent) :
    (events.foldl (AkkaProvider.step loadable) s).Sound loadable :=
  List.foldlRecOn events _ sound fun _ kept event _ => kept.step event

theorem sound_run (loadable : String → Bool) (events : List ProviderEvent) :
    (AkkaProvider.run loadable events).Sound loadable := by
  refine Sound.foldl ⟨fun name ref mapped => ?_, fun ref living => ?_, fun ref untold => ?_,
    fun name member => ?_⟩ events
  · cases mapped
  · cases living
  · rcases untold with noticed | message
    · cases noticed
    · cases message
  · cases member

end ActorSystem

namespace AkkaProvider

open ActorSystem

variable {loadable : String → Bool} {s : ActorSystem} {ref : ℕ} {className : String}

/-! ### One actor for a class -/

/-- However questions, stopping actors and messages follow each other: no class has two living
actors, and the map leads to all living ones. What else it leads to has stopped, and the message is
on its way. When no message is, then the map leads to the living actors, and to nothing else. -/
theorem livingOnce_run (loadable : String → Bool) (events : List ProviderEvent) :
    (∀ ref ∈ (run loadable events).living, ∀ other ∈ (run loadable events).living,
      (run loadable events).created[ref]? = (run loadable events).created[other]? → ref = other) ∧
    (∀ name ref, (run loadable events).actorMap.get? name = some ref →
      (run loadable events).created[ref]? = some name ∧
        (ref ∉ (run loadable events).living ↔ (run loadable events).Untold ref)) ∧
    ((∀ ref, ¬ (run loadable events).Untold ref) → ∀ name ref,
      (run loadable events).actorMap.get? name = some ref ↔
        ref ∈ (run loadable events).living ∧ (run loadable events).created[ref]? = some name) := by
  have sound := sound_run loadable events
  have found : ∀ ref ∈ (run loadable events).living, ∀ name,
      (run loadable events).created[ref]? = some name →
        (run loadable events).actorMap.get? name = some ref := by
    intro ref living name created
    obtain ⟨name', created', mapped⟩ := sound.kept ref living
    rw [created] at created'
    cases created'
    exact mapped
  refine ⟨fun ref living other living' same => ?_, fun name ref mapped => ?_,
    fun quiet name ref => ⟨fun mapped => ?_, fun here => found ref here.1 name here.2⟩⟩
  · obtain ⟨name, created, mapped⟩ := sound.kept ref living
    have mapped' := found other living' name (same ▸ created)
    rw [mapped] at mapped'
    exact Option.some.inj mapped'
  · obtain ⟨created, lives⟩ := sound.mapped name ref mapped
    exact ⟨created, lives.resolve_left, fun untold => (sound.untold ref untold).2⟩
  · obtain ⟨created, lives⟩ := sound.mapped name ref mapped
    exact ⟨lives.resolve_right (quiet ref), created⟩

/-! ### Answers -/

/-- Actors are added behind the others. -/
theorem created_step (s : ActorSystem) (event : ProviderEvent) :
    s.created <+: (step loadable s event).created := by
  cases event with
  | find asker name => exact List.prefix_rfl
  | stop other =>
    rw [step]
    split_ifs <;> exact List.prefix_rfl
  | notify other =>
    rw [step]
    split_ifs <;> exact List.prefix_rfl
  | receive =>
    rw [step]
    split
    case h_1 => exact List.prefix_rfl
    case h_2 message mailbox first =>
      cases message with
      | terminated other => exact List.prefix_rfl
      | find asker name =>
        rw [receive]
        split
        case h_2 => exact List.prefix_rfl
        case h_1 actor s' given =>
          rw [getOrCreateActor] at given
          split at given
          case h_1 =>
            cases given
            exact List.prefix_rfl
          case h_2 =>
            split_ifs at given
            cases given
            exact List.prefix_append ..

/-- What an event answers about a class, when there is an actor of it before and after. -/
theorem answers_step (sound : s.Sound loadable) (event : ProviderEvent)
    (created : s.created[ref]? = some className) (living : ref ∈ (step loadable s event).living) :
    ref ∈ s.living ∧ ∃ answers, (step loadable s event).answers = s.answers ++ answers ∧
      ∀ asker actor, (asker, className, actor) ∈ answers → actor = some ref := by
  have below := (List.getElem?_eq_some_iff.mp created).1
  have mapped : ref ∈ s.living → s.actorMap.get? className = some ref := by
    intro living
    obtain ⟨name, created', mapped⟩ := sound.kept ref living
    rw [created] at created'
    cases created'
    exact mapped
  have nothing : ∃ answers, s.answers = s.answers ++ answers ∧
      ∀ asker actor, (asker, className, actor) ∈ answers → actor = some ref :=
    ⟨[], (List.append_nil _).symm, fun asker actor member => nomatch member⟩
  cases event with
  | find asker name => exact ⟨living, nothing⟩
  | stop other =>
    rw [step] at living ⊢
    split_ifs at living ⊢ with there
    · exact ⟨Finset.mem_of_mem_erase living, nothing⟩
    · exact ⟨living, nothing⟩
  | notify other =>
    rw [step] at living ⊢
    split_ifs at living ⊢ <;> exact ⟨living, nothing⟩
  | receive =>
    cases first : s.mailbox with
    | nil =>
      rw [step, first] at living ⊢
      exact ⟨living, nothing⟩
    | cons message mailbox =>
      rw [step, first] at living ⊢
      cases message with
      | terminated other => exact ⟨living, nothing⟩
      | find asker name =>
        dsimp only at living ⊢
        rw [receive] at living ⊢
        cases given : getOrCreateActor loadable { s with mailbox } name with
        | none =>
          -- a restart would have stopped the actor
          rw [given] at living
          cases living
        | some here =>
          obtain ⟨actor, s'⟩ := here
          rw [given] at living
          dsimp only at living ⊢
          rw [getOrCreateActor] at given
          split at given
          case h_1 actor' known =>
            cases given
            refine ⟨living, [(asker, name, some actor)], rfl, fun asker' got member => ?_⟩
            cases List.mem_singleton.mp member
            exact known.symm.trans (mapped living)
          case h_2 unknown =>
            split_ifs at given with known
            cases given
            have old := (Finset.mem_insert.mp living).resolve_left below.ne
            refine ⟨old, [(asker, name, some s.created.length)], rfl, fun asker' got member => ?_⟩
            cases List.mem_singleton.mp member
            exact nomatch unknown.symm.trans (mapped old)

/-- As long as an actor lives, everyone who asks for its class gets it. -/
theorem answers_while_living (loadable : String → Bool) (before after : List ProviderEvent)
    (created : (run loadable before).created[ref]? = some className)
    (living : ref ∈ (run loadable (before ++ after)).living) :
    ∃ answers, (run loadable (before ++ after)).answers =
        (run loadable before).answers ++ answers ∧
      ∀ asker actor, (asker, className, actor) ∈ answers → actor = some ref := by
  have both : run loadable (before ++ after) =
      after.foldl (step loadable) (run loadable before) := List.foldl_append
  rw [both] at living ⊢
  clear both
  -- the actor lives after every event, as an actor that has stopped stays so
  suffices both : ref ∈ (run loadable before).living ∧ ∃ answers,
      (after.foldl (step loadable) (run loadable before)).answers =
        (run loadable before).answers ++ answers ∧
      ∀ asker actor, (asker, className, actor) ∈ answers → actor = some ref from both.2
  have sound := sound_run loadable before
  generalize run loadable before = s at created sound living
  induction after generalizing s with
  | nil => exact ⟨living, [], (List.append_nil _).symm, fun asker actor member => nomatch member⟩
  | cons event after ih =>
    rw [List.foldl_cons] at living ⊢
    have created' : (step loadable s event).created[ref]? = some className := by
      obtain ⟨more, grown⟩ : s.created <+: (step loadable s event).created := created_step s event
      rw [← grown, List.getElem?_append_left (List.getElem?_eq_some_iff.mp created).1, created]
    obtain ⟨living', answers', same', got'⟩ :=
      ih (step loadable s event) created' (sound.step event) living
    obtain ⟨lives, answers, same, got⟩ := answers_step sound event created living'
    refine ⟨lives, answers ++ answers', by rw [same', same, List.append_assoc], ?_⟩
    intro asker actor member
    rcases List.mem_append.mp member with first | later
    · exact got asker actor first
    · exact got' asker actor later

/-- An actor is given to two, while another one stops. -/
theorem answers_while_living_two :
    ∃ answers, (run (fun _ => true) ([.find 0 "Correlation", .receive] ++
        [.find 1 "Simulation", .receive, .stop 1, .find 2 "Correlation", .receive])).answers =
        (run (fun _ => true) [.find 0 "Correlation", .receive]).answers ++ answers ∧
      ∀ asker actor, (asker, "Correlation", actor) ∈ answers → actor = some 0 :=
  answers_while_living (fun _ => true) _ _ (by decide) (by decide)

/-! ### Questions -/

/-- The question that is asked by an event. -/
def question : ProviderEvent → Option (ℕ × String)
  | .find asker className => some (asker, className)
  | .receive | .stop _ | .notify _ => none

/-- The question in a message. -/
def waiting : ProviderMessage → Option (ℕ × String)
  | .find asker className => some (asker, className)
  | .terminated _ => none

/-- The questions that have been answered, then those that have not been. -/
def questions (s : ActorSystem) : List (ℕ × String) :=
  s.answers.map (fun answer => (answer.1, answer.2.1)) ++ s.mailbox.filterMap waiting

/-- An answer that fits: an actor of the class, or none when the class cannot be loaded. -/
def Fits (loadable : String → Bool) (created : List String) (answer : ℕ × String × Option ℕ) :
    Prop :=
  match answer.2.2 with
  | none => loadable answer.2.1 = false
  | some actor => loadable answer.2.1 = true ∧ created[actor]? = some answer.2.1

/-- An answer fits when more actors have been created. -/
theorem Fits.of_more {created created' : List String} {answer : ℕ × String × Option ℕ}
    (fits : Fits loadable created answer) (more : created <+: created') :
    Fits loadable created' answer := by
  obtain ⟨asker, name, actor⟩ := answer
  cases actor with
  | none => exact fits
  | some actor =>
    obtain ⟨loads, here⟩ := fits
    obtain ⟨new, rfl⟩ := more
    refine ⟨loads, ?_⟩
    rw [List.getElem?_append_left (List.getElem?_eq_some_iff.mp here).1, here]

/-- A question that is taken from the mailbox is answered. -/
theorem receive_find (sound : s.Sound loadable) (asker : ℕ) (name : String) :
    ∃ actor, (receive loadable s (.find asker name)).answers = s.answers ++ [(asker, name, actor)] ∧
      (receive loadable s (.find asker name)).mailbox = s.mailbox ∧
      Fits loadable (receive loadable s (.find asker name)).created (asker, name, actor) := by
  rw [receive]
  cases given : getOrCreateActor loadable s name with
  | none =>
    refine ⟨none, rfl, rfl, ?_⟩
    rw [getOrCreateActor] at given
    split at given
    case h_1 => cases given
    case h_2 =>
      split_ifs at given with known
      exact Bool.eq_false_iff.mpr known
  | some here =>
    obtain ⟨actor, s'⟩ := here
    obtain ⟨-, created, loads, mailbox, answers⟩ := sound.getOrCreateActor given
    exact ⟨some actor, congrArg (· ++ [(asker, name, some actor)]) answers, mailbox, loads, created⟩

/-- What an event does to the questions and to the answers. -/
theorem questions_step (sound : s.Sound loadable) (event : ProviderEvent) :
    questions (step loadable s event) = questions s ++ (question event).toList ∧
      ∀ answer ∈ (step loadable s event).answers,
        answer ∈ s.answers ∨ Fits loadable (step loadable s event).created answer := by
  cases event with
  | find asker name =>
    refine ⟨?_, fun answer => Or.inl⟩
    rw [questions, step, List.filterMap_append, ← List.append_assoc]
    rfl
  | stop other =>
    rw [step, question, Option.toList_none, List.append_nil]
    split_ifs <;> exact ⟨rfl, fun answer => Or.inl⟩
  | notify other =>
    rw [step, question, Option.toList_none, List.append_nil]
    split_ifs
    · refine ⟨?_, fun answer => Or.inl⟩
      rw [questions, List.filterMap_append, questions]
      exact congrArg _ (List.append_nil _)
    · exact ⟨rfl, fun answer => Or.inl⟩
  | receive =>
    rw [question, Option.toList_none, List.append_nil]
    cases first : s.mailbox with
    | nil =>
      rw [step, first]
      exact ⟨rfl, fun answer => Or.inl⟩
    | cons message mailbox =>
      rw [step, first]
      cases message with
      | terminated other =>
        refine ⟨?_, fun answer => Or.inl⟩
        rw [questions, questions, first]
        rfl
      | find asker name =>
        obtain ⟨actor, answers, mailbox', fits⟩ :=
          receive_find (sound.of_mailbox first) asker name
        refine ⟨?_, fun answer member => ?_⟩
        · rw [questions, answers, mailbox', questions, first, List.map_append, List.append_assoc]
          rfl
        · rw [answers] at member
          refine (List.mem_append.mp member).imp_right fun new => ?_
          rw [List.mem_singleton.mp new]
          exact fits

/-- The questions that have been answered are the first ones, in the order in which they were asked,
and the others are waiting. Every answer is an actor of the class, or there is none when the class
cannot be loaded. -/
theorem answers_in_order (loadable : String → Bool) (events : List ProviderEvent) :
    questions (run loadable events) = events.filterMap question ∧
      ∀ answer ∈ (run loadable events).answers,
        Fits loadable (run loadable events).created answer := by
  induction events using List.reverseRecOn with
  | nil => exact ⟨rfl, fun answer member => nomatch member⟩
  | append_singleton events event ih =>
    obtain ⟨order, fits⟩ := ih
    have last : run loadable (events ++ [event]) = step loadable (run loadable events) event := by
      rw [run, List.foldl_append]
      rfl
    obtain ⟨order', fits'⟩ := questions_step (sound_run loadable events) event
    rw [last, order', order, List.filterMap_append]
    refine ⟨?_, fun answer member => ?_⟩
    · cases event <;> rfl
    · rcases fits' answer member with old | new
      · exact (fits answer old).of_more (created_step _ event)
      · exact new

end AkkaProvider

end ThinkingUnderstanding
