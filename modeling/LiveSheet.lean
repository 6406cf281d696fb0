import LiveSheet.Script
import LiveSheet.Server
import LiveSheet.Proofs.Work
import LiveSheet.Proofs.Controller
import LiveSheet.Proofs.Watched
import LiveSheet.Proofs.Jobs
import LiveSheet.Proofs.Runs
import LiveSheet.Proofs.Provenance
import LiveSheet.Proofs.Freshness
import LiveSheet.Proofs.Layout
import LiveSheet.Proofs.Items
import LiveSheet.Proofs.Forms
import LiveSheet.Proofs.Statements
import LiveSheet.Proofs.Coverage
import LiveSheet.Proofs.Braces
import LiveSheet.Proofs.Acceptance
import LiveSheet.Proofs.History
import LiveSheet.Proofs.Changes
import LiveSheet.Proofs.Lines
import LiveSheet.Proofs.Client
import LiveSheet.Proofs.Documents
import LiveSheet.Proofs.Nesting
import LiveSheet.Proofs.Scopes
import LiveSheet.Proofs.Sorting
import LiveSheet.Proofs.Completions
import LiveSheet.Proofs.Closing
import LiveSheet.Proofs.Pairing
import LiveSheet.Proofs.Moves
import LiveSheet.Proofs.Joining
import LiveSheet.Proofs.Comments
import LiveSheet.Proofs.Siblings
import LiveSheet.Proofs.Spelling
import LiveSheet.Proofs.Words
import LiveSheet.Proofs.Offers
import LiveSheet.Proofs.Contexts
import LiveSheet.Proofs.Entries
import LiveSheet.Proofs.Parameters
import LiveSheet.Proofs.Outcomes
import LiveSheet.Proofs.Registrations
import LiveSheet.Proofs.Places
import LiveSheet.Proofs.Overruns
import LiveSheet.Proofs.Hover
import LiveSheet.Proofs.Outline
import LiveSheet.Proofs.Boundaries
import LiveSheet.Proofs.Spacing
import LiveSheet.Proofs.Ranges
import LiveSheet.Proofs.Promptness
import LiveSheet.Proofs.Blanking
import LiveSheet.Proofs.Trivia
import LiveSheet.Proofs.Bindings
import LiveSheet.Proofs.Declarations
import LiveSheet.Proofs.Streams
import LiveSheet.Proofs.Receivers
import LiveSheet.Proofs.Cancellation
import LiveSheet.Proofs.Descent
import LiveSheet.Proofs.Depth
import LiveSheet.Proofs.Faults
import LiveSheet.Proofs.Delimiters
import LiveSheet.Proofs.Lookahead
import LiveSheet.Proofs.Schema
