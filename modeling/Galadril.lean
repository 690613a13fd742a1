import Galadril.Compilation.Fencing
import Galadril.Compilation.Lineage
import Galadril.Compilation.RenderedProjects
import Galadril.Compilation.Retention
import Galadril.Compilation.TemplateObjects
import Galadril.Conversations.History
import Galadril.Conversations.Streaming
import Galadril.Dashboard.Arrangement
import Galadril.Dashboard.SavedGraphs
import Galadril.Documents.IndexRuns
import Galadril.Execution.CommandIdentity
import Galadril.Execution.Delivery
import Galadril.Execution.Timer
import Galadril.Execution.Workers
import Galadril.Iam.Directory
import Galadril.Iam.PolicyCache
import Galadril.Iam.Projection
import Galadril.Iam.Recovery
import Galadril.Iam.ResourceAccess
import Galadril.Iam.Suspension
import Galadril.Intake.Delimited
import Galadril.Intake.Publications
import Galadril.Intake.Router
import Galadril.Intake.SchemaRegistration
import Galadril.Mail.ThreadNumbers
import Galadril.Pengolo.FileNames
import Galadril.Pengolo.Replay
import Galadril.Pengolo.Specialists
import Galadril.Pipelines.Definitions
import Galadril.Registry.ApprovalHistory
import Galadril.Registry.ApprovedContent
import Galadril.Registry.Comparison
import Galadril.Registry.ContentHashes
import Galadril.Registry.Diagnostics
import Galadril.Registry.DiffCorrect
import Galadril.Registry.FlatPipelines
import Galadril.Registry.Interleavings
import Galadril.Registry.Loading
import Galadril.Registry.OntologyHistory
import Galadril.Registry.OntologySpecification
import Galadril.Registry.Overlays
import Galadril.Registry.Provenance
import Galadril.Registry.SoftDeletion
import Galadril.Registry.TargetOrigins
import Galadril.Registry.TenantErasure
import Galadril.Scribe.AccountDecisions
import Galadril.Scribe.Generations
import Galadril.Search.Evidence
import Galadril.Search.GraphTools
import Galadril.Search.QueryText
import Galadril.Vision.CausalRuns
import Galadril.Vision.LicorneRuntime
import Galadril.Vision.ObservationIdentity
