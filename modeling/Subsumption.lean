import Subsumption.Closure
import Subsumption.Serial
import Subsumption.Settings.Reading
import Subsumption.Proofs.ChainContents
import Subsumption.Proofs.Changes
import Subsumption.Proofs.WellFormed
import Subsumption.Proofs.PropertyClosure
import Subsumption.Proofs.CanonicalModel
import Subsumption.Proofs.Clashes
import Subsumption.Proofs.Carrying
import Subsumption.Proofs.Resaturation
import Subsumption.Proofs.Engines
import Subsumption.Proofs.Finished
import Subsumption.Proofs.Freezing
import Subsumption.Proofs.Interruption
import Subsumption.Proofs.Crew.Handover
import Subsumption.Proofs.Crew.Jobs
import Subsumption.Proofs.Crew.Marks
import Subsumption.Proofs.Crew.Observing
import Subsumption.Proofs.Worker.Factory
import Subsumption.Proofs.Worker.Layouts
import Subsumption.Proofs.Conservation
import Subsumption.Proofs.Hierarchy
import Subsumption.Proofs.Refusals
import Subsumption.Proofs.Links
import Subsumption.Proofs.Applications
import Subsumption.Proofs.Settings
import Subsumption.Proofs.Interning
import Subsumption.Proofs.Spellings
import Subsumption.Proofs.ChainOrder
import Subsumption.Proofs.Pruning
