import IncludeAudit.Directive.Line
import IncludeAudit.Main
import IncludeAudit.Proofs.Batch.Entries
import IncludeAudit.Proofs.Batch.Summary
import IncludeAudit.Proofs.Batch.Wildcards
import IncludeAudit.Proofs.Cache.Fingerprint
import IncludeAudit.Proofs.Command.ExitCode
import IncludeAudit.Proofs.Directive.Grammar
import IncludeAudit.Proofs.Event.Codec
import IncludeAudit.Proofs.Event.Schema
import IncludeAudit.Proofs.FileId.CanonicalForm
import IncludeAudit.Proofs.FileId.Spelling
import IncludeAudit.Proofs.Stream.Acceptance
import IncludeAudit.Proofs.Stream.Blanking
import IncludeAudit.Proofs.Stream.EndOfUnit
import IncludeAudit.Proofs.Stream.Transcript
import IncludeAudit.Proofs.Tree.Discovery
import IncludeAudit.Proofs.Unit.Emission
import IncludeAudit.Proofs.Unit.Expansions
import IncludeAudit.Proofs.Unit.Growth
import IncludeAudit.Proofs.Unit.Liveness
import IncludeAudit.Proofs.Unit.Locality
import IncludeAudit.Proofs.Unit.Order
import IncludeAudit.Proofs.Unit.Passes
import IncludeAudit.Proofs.Unit.Projection
import IncludeAudit.Proofs.Unit.Propagation
import IncludeAudit.Proofs.Unit.Siblings
import IncludeAudit.Proofs.Unit.Tracking
