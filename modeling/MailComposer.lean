import MailComposer.EditError
import MailComposer.Main
import MailComposer.Mutation.Json
import MailComposer.Session
import MailComposer.Proofs.Tree.Edits
import MailComposer.Proofs.Mutation.Applied
import MailComposer.Proofs.Session.Run
import MailComposer.Proofs.Session.DistinctIds
import MailComposer.Proofs.Session.Rewind
import MailComposer.Proofs.Json.Lexemes
import MailComposer.Proofs.Json.ReadBack
import MailComposer.Proofs.Json.Depth
import MailComposer.Proofs.Style.ReadBack
import MailComposer.Proofs.Component.ReadBack
import MailComposer.Proofs.Template.RoundTrip
import MailComposer.Proofs.Html.Inert
import MailComposer.Proofs.Html.Injection
import MailComposer.Proofs.Html.Nesting
import MailComposer.Proofs.Session.Exported
import MailComposer.Proofs.Session.Refused
import MailComposer.Proofs.Mutation.Effects
import MailComposer.Proofs.Session.Selection
import MailComposer.Proofs.Session.Padded
import MailComposer.Proofs.Html.Blocks
import MailComposer.Proofs.Html.Fragments
import MailComposer.Proofs.Session.Duplicated
import MailComposer.Proofs.Session.Batch
import MailComposer.Proofs.History.Capped
import MailComposer.Proofs.Tree.Relocated
import MailComposer.Proofs.Mutation.RoundTrip
import MailComposer.Proofs.Tree.Holding
import MailComposer.Proofs.Tree.Walk
import MailComposer.Proofs.Mutation.Copied
import MailComposer.Proofs.Mutation.Relocated
import MailComposer.Proofs.Tree.Added
import MailComposer.Proofs.History.Inverse
import MailComposer.Proofs.Tree.Commuting
import MailComposer.Proofs.Mutation.Positions
import MailComposer.Proofs.Tree.Patched
import MailComposer.Proofs.Session.Idle
import MailComposer.Proofs.Style.Parts
import MailComposer.Proofs.Html.Appearance
import MailComposer.Proofs.Html.Alignment
import MailComposer.Proofs.Html.Entities
import MailComposer.Proofs.Html.Margins
import MailComposer.Proofs.Measure.Bytes
import MailComposer.Proofs.Ids.Timed
import MailComposer.Proofs.Number.Nearest
import MailComposer.Proofs.Measure.Settled
import MailComposer.Proofs.Session.Unified
import MailComposer.Proofs.Cli.Compiled
import MailComposer.Proofs.Tree.Searches
import MailComposer.Proofs.Style.Hyphens
