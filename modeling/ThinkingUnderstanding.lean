import ThinkingUnderstanding.LifeCycle.Accumulation
import ThinkingUnderstanding.LifeCycle.MostProbableAction
import ThinkingUnderstanding.Correlation.Clarification
import ThinkingUnderstanding.Solutions.Discrimination
import ThinkingUnderstanding.Parsing.Agreement
import ThinkingUnderstanding.Parsing.ErrorsReported
import ThinkingUnderstanding.Hierarchy.Inverse
import ThinkingUnderstanding.Persistence.Cleaning
import ThinkingUnderstanding.Persistence.NarrativeRestored
import ThinkingUnderstanding.Spike.SpikeOnce
import ThinkingUnderstanding.Spike.LatestResource
import ThinkingUnderstanding.Persistence.PhraseTreeRestored
import ThinkingUnderstanding.LifeCycle.Goals
import ThinkingUnderstanding.Correlation.SearchDepth
import ThinkingUnderstanding.Correlation.ShortestRoute
import ThinkingUnderstanding.Correlation.FailedDomainConcepts
import ThinkingUnderstanding.Parsing.Morphology
import ThinkingUnderstanding.Persistence.UriText
import ThinkingUnderstanding.Parsing.PointingBack
import ThinkingUnderstanding.Simulation.Coverage
import ThinkingUnderstanding.Hierarchy.Ancestry
import ThinkingUnderstanding.Simulation.Soundness
import ThinkingUnderstanding.Simulation.TakenOnce
import ThinkingUnderstanding.Reformulation.ReformulationWay2Think
import ThinkingUnderstanding.Persistence.ReadYourWrites
import ThinkingUnderstanding.Persistence.ConceptLoads
import ThinkingUnderstanding.Persistence.ConceptTotality
import ThinkingUnderstanding.Persistence.ReadChildren
import ThinkingUnderstanding.Persistence.ConceptNetworks
import ThinkingUnderstanding.Persistence.ConceptNetworkRestored
import ThinkingUnderstanding.Persistence.Merge
import ThinkingUnderstanding.Solutions.Missing
import ThinkingUnderstanding.Solutions.Matching
import ThinkingUnderstanding.Hierarchy.NetworkText
import ThinkingUnderstanding.Analysers.Justification
import ThinkingUnderstanding.Spike.RequestDecoding
import ThinkingUnderstanding.Spike.ExactRotation
import ThinkingUnderstanding.Spike.FailedRotation
import ThinkingUnderstanding.Parsing.SentenceOrder
import ThinkingUnderstanding.Parsing.SpellCorrection
import ThinkingUnderstanding.Parsing.CamelCase
import ThinkingUnderstanding.Parsing.PartOfSpeech
import ThinkingUnderstanding.Context.MergeLaws
import ThinkingUnderstanding.LifeCycle.ClassificationLists
import ThinkingUnderstanding.Math.Preorder
import ThinkingUnderstanding.Parsing.Annotation
import ThinkingUnderstanding.Parsing.FindPhrase
import ThinkingUnderstanding.Persistence.UnsavedParents
import ThinkingUnderstanding.Persistence.SaveWalks
import ThinkingUnderstanding.Persistence.ConceptIdentity
import ThinkingUnderstanding.Persistence.SavesAlike
import ThinkingUnderstanding.Math.KeptViews
import ThinkingUnderstanding.Persistence.StaleText
import ThinkingUnderstanding.Persistence.SolvedIssueRestored
import ThinkingUnderstanding.Persistence.SolutionsGrow
import ThinkingUnderstanding.Relex.RepairedSentence
import ThinkingUnderstanding.Relex.SharedEntities
import ThinkingUnderstanding.Math.ApartInsertion
import ThinkingUnderstanding.Relex.FeatureActions
import ThinkingUnderstanding.Relex.PhraseChains
import ThinkingUnderstanding.LifeCycle.AkkaProvider
import ThinkingUnderstanding.Correlation.Learning
