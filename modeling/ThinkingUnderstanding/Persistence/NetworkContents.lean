import Mathlib.Logic.Relator
import ThinkingUnderstanding.Persistence.ConceptNetworkRestored

/-!
# The contents of a network

Two networks, be they on one heap at different times or on two heaps, have the same contents when
their concepts correspond one to one: counterparts have the same name, content and probability, they
refer to counterparts, and the networks have counterparts for nodes and for the ends of their
links. Which objects these are plays no part.

## Main definitions

* `MatchedBy` — a correspondence of concepts by which two networks agree
* `SameContents` — two networks agree by some correspondence

## Main results

* `SameContents.trans` — networks with the contents of a third one
* `SameContents.of_sameGraph`, `SameContents.of_agree` — a network on two heaps that agree
* `NetworkLoaded.sameContents` — what is loaded has the contents of what was saved
-/

namespace ThinkingUnderstanding

open Math Semantics

section Contents

variable (heap heap' : Heap) (ρ : ConceptRef → ConceptRef → Prop)

/-- A concept has the name, the content and the probability of another one, and refers to the
counterparts of the concepts to which that one refers. -/
structure ConceptMatched (c c' : ConceptRef) : Prop where
  name : (heap'.uri (heap'.concept c').uri).name = (heap.uri (heap.concept c).uri).name
  content : (heap'.concept c').content = (heap.concept c).content
  probability : (heap'.concept c').probability = (heap.concept c).probability
  generalisations : Multiset.Rel ρ (heap.generalisations c).values
    (heap'.generalisations c').values
  specialisations : Multiset.Rel ρ (heap.specialisations c).values
    (heap'.specialisations c').values

/-- A link joins the counterparts of what another one joins, and has its name. -/
structure LinkMatched (l l' : LinkRef) : Prop where
  source : ρ (heap.link l).source (heap'.link l').source
  destination : ρ (heap.link l).destination (heap'.link l').destination
  name : (heap'.uri (heap'.link l').uri).name = (heap.uri (heap.link l).uri).name

/-- Concepts correspond one to one, and so do the nodes and the links of the networks. -/
structure MatchedBy (n n' : NetworkRef) : Prop where
  unique : Relator.BiUnique ρ
  concepts : ∀ c c', ρ c c' → ConceptMatched heap heap' ρ c c'
  nodes : Multiset.Rel ρ (heap.network n).nodes (heap'.network n').nodes
  links : Multiset.Rel (LinkMatched heap heap' ρ) (heap.network n).links (heap'.network n').links

/-- The second network has the contents of the first one. -/
def SameContents (n n' : NetworkRef) : Prop := ∃ ρ, MatchedBy heap heap' ρ n n'

end Contents

/-! ### Correspondences one after the other -/

/-- Two bags, each in correspondence with a third one. -/
theorem multisetRel_comp {α β γ : Type*} {r : α → β → Prop} {r' : β → γ → Prop} {as : Multiset α}
    {bs : Multiset β} {cs : Multiset γ} (first : Multiset.Rel r as bs)
    (second : Multiset.Rel r' bs cs) : Multiset.Rel (Relation.Comp r r') as cs := by
  induction first generalizing cs with
  | zero =>
    rw [Multiset.rel_zero_left.mp second]
    exact .zero
  | cons related _ ih =>
    obtain ⟨c, rest, related', later, rfl⟩ := Multiset.rel_cons_left.mp second
    exact .cons ⟨_, related, related'⟩ (ih later)

section Laws

variable {heap heap' heap'' : Heap} {ρ ρ' : ConceptRef → ConceptRef → Prop} {n n' n'' : NetworkRef}

theorem ConceptMatched.comp {c c' c'' : ConceptRef} (first : ConceptMatched heap heap' ρ c c')
    (second : ConceptMatched heap' heap'' ρ' c' c'') :
    ConceptMatched heap heap'' (Relation.Comp ρ ρ') c c'' where
  name := second.name.trans first.name
  content := second.content.trans first.content
  probability := second.probability.trans first.probability
  generalisations := multisetRel_comp first.generalisations second.generalisations
  specialisations := multisetRel_comp first.specialisations second.specialisations

theorem LinkMatched.comp {l l' l'' : LinkRef} (first : LinkMatched heap heap' ρ l l')
    (second : LinkMatched heap' heap'' ρ' l' l'') :
    LinkMatched heap heap'' (Relation.Comp ρ ρ') l l'' where
  source := ⟨_, first.source, second.source⟩
  destination := ⟨_, first.destination, second.destination⟩
  name := second.name.trans first.name

theorem MatchedBy.comp (first : MatchedBy heap heap' ρ n n')
    (second : MatchedBy heap' heap'' ρ' n' n'') :
    MatchedBy heap heap'' (Relation.Comp ρ ρ') n n'' where
  unique := by
    constructor
    · rintro c d c'' ⟨c', here, there⟩ ⟨d', here', there'⟩
      obtain rfl := second.unique.1 there there'
      exact first.unique.1 here here'
    · rintro c c'' d'' ⟨c', here, there⟩ ⟨d', here', there'⟩
      obtain rfl := first.unique.2 here here'
      exact second.unique.2 there there'
  concepts := by
    rintro c c'' ⟨c', here, there⟩
    exact (first.concepts c c' here).comp (second.concepts c' c'' there)
  nodes := multisetRel_comp first.nodes second.nodes
  links := by
    refine (multisetRel_comp first.links second.links).mono ?_
    rintro l - l'' - ⟨l', here, there⟩
    exact here.comp there

theorem SameContents.trans (first : SameContents heap heap' n n')
    (second : SameContents heap' heap'' n' n'') : SameContents heap heap'' n n'' := by
  obtain ⟨ρ, first⟩ := first
  obtain ⟨ρ', second⟩ := second
  exact ⟨_, first.comp second⟩

/-- The nodes have the same names. -/
theorem SameContents.names (same : SameContents heap heap' n n') :
    Multiset.map (fun c => (heap.uri (heap.concept c).uri).name) (heap.network n).nodes =
      Multiset.map (fun c => (heap'.uri (heap'.concept c).uri).name) (heap'.network n').nodes := by
  obtain ⟨ρ, matched⟩ := same
  rw [← Multiset.rel_eq, Multiset.rel_map]
  exact matched.nodes.mono fun c _ c' _ related => (matched.concepts c c' related).name.symm

/-- Uids and kept texts are not part of the contents. -/
theorem SameContents.of_sameGraph (same : heap.SameGraph heap') (n : NetworkRef) :
    SameContents heap heap' n n := by
  have names : ∀ u, (heap'.uri u).name = (heap.uri u).name := fun u => by rw [same.fields u]
  have concept : heap'.concept = heap.concept := by rw [same.objects]; rfl
  have generalisations : heap'.generalisations = heap.generalisations := by
    rw [same.objects]
    rfl
  have specialisations : heap'.specialisations = heap.specialisations := by
    rw [same.objects]
    rfl
  have link : heap'.link = heap.link := by rw [same.objects]; rfl
  have network : heap'.network = heap.network := by rw [same.objects]; rfl
  refine ⟨Eq, ⟨fun _ _ _ here there => here.trans there.symm, fun _ _ _ here there =>
    here.symm.trans there⟩, ?_, ?_, ?_⟩
  · rintro c _ rfl
    constructor <;> simp [names, concept, generalisations, specialisations, Multiset.rel_eq]
  · rw [network, Multiset.rel_eq]
  · rw [network]
    refine Multiset.rel_refl_of_refl_on fun l _ => ⟨?_, ?_, ?_⟩
    all_goals simp [names, link]

/-- A concept is on both heaps what it is, and refers to concepts of the list. -/
structure AgreeOn (concepts : List ConceptRef) (heap heap' : Heap) (c : ConceptRef) : Prop where
  name : (heap'.uri (heap'.concept c).uri).name = (heap.uri (heap.concept c).uri).name
  content : (heap'.concept c).content = (heap.concept c).content
  probability : (heap'.concept c).probability = (heap.concept c).probability
  generalisations : (heap'.generalisations c).values = (heap.generalisations c).values
  specialisations : (heap'.specialisations c).values = (heap.specialisations c).values
  closed : ∀ d ∈ (heap.generalisations c).values ++ (heap.specialisations c).values, d ∈ concepts

instance (concepts : List ConceptRef) (heap heap' : Heap) (c : ConceptRef) :
    Decidable (AgreeOn concepts heap heap' c) :=
  decidable_of_iff ((heap'.uri (heap'.concept c).uri).name = (heap.uri (heap.concept c).uri).name ∧
      (heap'.concept c).content = (heap.concept c).content ∧
      (heap'.concept c).probability = (heap.concept c).probability ∧
      (heap'.generalisations c).values = (heap.generalisations c).values ∧
      (heap'.specialisations c).values = (heap.specialisations c).values ∧
      ∀ d ∈ (heap.generalisations c).values ++ (heap.specialisations c).values, d ∈ concepts)
    ⟨fun ⟨name, content, probability, generalisations, specialisations, closed⟩ =>
        ⟨name, content, probability, generalisations, specialisations, closed⟩,
      fun agree => ⟨agree.name, agree.content, agree.probability, agree.generalisations,
        agree.specialisations, agree.closed⟩⟩

/-- Between heaps that agree on concepts to which they are closed, a network of these concepts
without links keeps its contents. -/
theorem SameContents.of_agree {concepts : List ConceptRef}
    (agree : ∀ c ∈ concepts, AgreeOn concepts heap heap' c)
    (inside : ∀ c ∈ (heap.network n).nodes, c ∈ concepts)
    (nodes : (heap'.network n).nodes = (heap.network n).nodes)
    (links : (heap.network n).links = []) (links' : (heap'.network n).links = []) :
    SameContents heap heap' n n := by
  let ρ : ConceptRef → ConceptRef → Prop := fun c c' => c = c' ∧ c ∈ concepts
  have self : ∀ {cs : List ConceptRef}, (∀ c ∈ cs, c ∈ concepts) →
      Multiset.Rel ρ (cs : Multiset ConceptRef) cs := fun among =>
    Multiset.rel_refl_of_refl_on fun c member => ⟨rfl, among c member⟩
  refine ⟨ρ, ?_, ?_, ?_, ?_⟩
  · exact ⟨fun _ _ _ here there => here.1.trans there.1.symm,
      fun _ _ _ here there => here.1.symm.trans there.1⟩
  · rintro c _ ⟨rfl, member⟩
    have same := agree c member
    refine ⟨same.name, same.content, same.probability, ?_, ?_⟩
    · rw [same.generalisations]
      exact self fun d below => same.closed d (List.mem_append_left _ below)
    · rw [same.specialisations]
      exact self fun d below => same.closed d (List.mem_append_right _ below)
  · rw [nodes]
    exact self inside
  · rw [links, links']
    exact .zero

end Laws

/-! ### What is loaded -/

section Loaded

variable {platform : Platform} {stack : ℕ} {s t w : World} {n n' : NetworkRef} {parent : Option ℕ}
  {key linkType : String} {objects : List ResourceRef}

/-- What is loaded of a network that can be restored has its contents. -/
theorem NetworkLoaded.sameContents (storable : NetworkStorable platform stack s n key linkType)
    (savable : NetworkSavable stack s n objects)
    (followed : (s.networkPlan stack n key linkType).Followed platform
      (s.networkPlan stack n key linkType).arrivals t)
    (stored : (s.networkPlan stack n key linkType).Stored (s.kb.getNodeById parent)
      (rootCall (.network n) key linkType) t.kb)
    (loaded : NetworkLoaded platform t w
      ((s.networkPlan stack n key linkType).nodeOf (.network n)) n')
    (restorable : NetworkRestorable stack s n parent key linkType) :
    SameContents s.heap w.heap n n' := by
  have unlinked := restorable.unlinked
  have restored := loaded.networkRestored storable savable followed stored restorable
  have registered : ∀ {c c'}, s.heap.ReadWith n (.concept c) → (Reloaded s t w c c' ↔
      w.id2object ((s.networkPlan stack n key linkType).nodeOf (.concept c)) =
        some (.concept c')) := fun read =>
    NetworkLoaded.reloaded_iff storable savable unlinked followed stored read
  -- the concepts that are read with the network correspond to those made of their nodes
  let ρ : ConceptRef → ConceptRef → Prop := fun c c' =>
    s.heap.ReadWith n (.concept c) ∧ Reloaded s t w c c'
  have below : ∀ {cs : List ConceptRef} {cs' : List ConceptRef},
      (∀ c ∈ cs, s.heap.ReadWith n (.concept c)) → Multiset.Rel (Reloaded s t w) cs cs' →
        Multiset.Rel ρ (cs : Multiset ConceptRef) cs' := fun reads rel =>
    rel.mono fun c member c' _ related => ⟨reads c member, related⟩
  refine ⟨ρ, ⟨?_, ?_⟩, ?_, ?_, ?_⟩
  · rintro c d c' ⟨read, related⟩ ⟨read', related'⟩
    -- an object has been made of one node, and each concept has a node of its own
    have made := loaded.complete _ c' ((registered read).mp related)
    have here := made.id_eq (loaded.complete _ c' ((registered read').mp related'))
    exact ResourceRef.concept.inj (storable.eq_of_nodeOf savable unlinked read here)
  · rintro c c' d' ⟨read, related⟩ ⟨-, related'⟩
    have same := ((registered read).mp related).symm.trans ((registered read).mp related')
    exact ResourceRef.concept.inj (Option.some.inj same)
  · rintro c c' ⟨read, related⟩
    obtain ⟨d', restored⟩ := restored.concepts c read
    have same := ((registered read).mp related).symm.trans
      ((registered read).mp restored.reloaded)
    obtain rfl : c' = d' := ResourceRef.concept.inj (Option.some.inj same)
    exact ⟨restored.name, restored.content, restored.probability,
      below (fun d member => read.tail (List.mem_append_left _ (List.mem_append_left _
        (List.mem_map_of_mem member)))) restored.generalisations,
      below (fun d member => read.tail (List.mem_append_left _ (List.mem_append_right _
        (List.mem_map_of_mem member)))) restored.specialisations⟩
  · exact below (fun c member => .single (List.mem_map_of_mem member)) restored.nodes
  · have none := restored.links
    rw [unlinked] at none ⊢
    rw [Multiset.rel_zero_left.mp none]
    exact .zero

end Loaded

end ThinkingUnderstanding
