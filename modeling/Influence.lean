import Influence.Main
import Influence.Proofs.Coordinates
import Influence.Proofs.Odometer
import Influence.Proofs.Axes
import Influence.Proofs.Table.Value
import Influence.Proofs.Elimination.Steps
import Influence.Proofs.Dependencies
import Influence.Proofs.Elimination.Blocks
import Influence.Proofs.Elimination.Choice
import Influence.Proofs.Network.Ancestors
import Influence.Proofs.Network.Answer
import Influence.Proofs.Network.Maximization
import Influence.Proofs.Network.Posterior
import Influence.Proofs.Network.Recall
import Influence.Proofs.Network.ConditionalUtility
import Influence.Proofs.Network.History
import Influence.Proofs.Network.Independence
import Influence.Proofs.Network.AnyOrder
import Influence.Proofs.Network.Affine
import Influence.Proofs.Network.Acceptance
import Influence.Proofs.Network.Causes
import Influence.Proofs.Network.Classification
import Influence.Proofs.Network.TotalExpectation
import Influence.Proofs.Network.Effects
import Influence.Proofs.Elimination.Integrity
import Influence.Proofs.Table.Walk
import Influence.Proofs.Table.Laws
import Influence.Proofs.Table.BestRows
import Influence.Proofs.Network.Argmax
import Influence.Proofs.Elimination.Retention
import Influence.Proofs.Table.BestChoice
import Influence.Proofs.Network.RowScales
import Influence.Proofs.Network.DecisionGraph
import Influence.Proofs.Identities
import Influence.Proofs.Network.Replacement
import Influence.Proofs.Table.Indexing
import Influence.Proofs.Elimination.HiddenPass
import Influence.Proofs.Report.Labels
import Influence.Proofs.Elimination.Answers
import Influence.Proofs.Network.Upkeep
