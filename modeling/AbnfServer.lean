import AbnfServer.Dict
import AbnfServer.Text.Basic
import AbnfServer.Text.Blank
import AbnfServer.Text.Position
import AbnfServer.Text.LineIndex
import AbnfServer.Text.Edit
import AbnfServer.Text.Uri
import AbnfServer.Decimal.Shortest
import AbnfServer.Json.Basic
import AbnfServer.Json.Token
import AbnfServer.Json.Parser
import AbnfServer.Json.Printer
import AbnfServer.Rule.Name
import AbnfServer.Rule.Core
import AbnfServer.Rule.Definition
import AbnfServer.Rule.Reference
import AbnfServer.Rule.Layout
import AbnfServer.Message.Template
import AbnfServer.Message.Catalog
import AbnfServer.Message.English
import AbnfServer.Message.Chinese
import AbnfServer.Message.Locale
import AbnfServer.Rule.Rename
import AbnfServer.Hover
import AbnfServer.Cache.Aging
import AbnfServer.Cache.Scans
import AbnfServer.Cache.Report
import AbnfServer.Document.Basic
import AbnfServer.Document.Open
import AbnfServer.Resolver
import AbnfServer.Settings.Basic
import AbnfServer.Settings.Payload
import AbnfServer.Settings.Reference
import AbnfServer.Session.Message
import AbnfServer.Session.Basic
import AbnfServer.Session.Wire
import AbnfServer.Session.Envelope
import AbnfServer.Session.Frame
import AbnfServer.CommandLine.Basic
import AbnfServer.CommandLine.LogFile
import AbnfServer.Main
import AbnfServer.Proofs.Sorting
import AbnfServer.Proofs.Cache.Recency
import AbnfServer.Proofs.Cache.Refinement
import AbnfServer.Proofs.Cache.Entries
import AbnfServer.Proofs.Cache.Coherence
import AbnfServer.Proofs.Cache.History
import AbnfServer.Proofs.Cache.Live
import AbnfServer.Proofs.Cache.Traces
import AbnfServer.Proofs.Text.Places
import AbnfServer.Proofs.Text.Splices
import AbnfServer.Proofs.Text.Lines
import AbnfServer.Proofs.Text.Conversion
import AbnfServer.Proofs.Message.Template
import AbnfServer.Proofs.Rule.Occurrences
import AbnfServer.Proofs.Rule.Selection
import AbnfServer.Proofs.Rule.Plan
import AbnfServer.Proofs.Rule.Rewriting
import AbnfServer.Proofs.Rule.Coverage
import AbnfServer.Proofs.Rule.Definitions
import AbnfServer.Proofs.Rule.RenamedLines
import AbnfServer.Proofs.Rule.Layout
import AbnfServer.Proofs.Rule.LineSearch
import AbnfServer.Proofs.Document.Words
import AbnfServer.Proofs.Rule.WordCoverage
import AbnfServer.Proofs.Rule.References
import AbnfServer.Proofs.Rule.Sites
import AbnfServer.Proofs.Settings.Merge
import AbnfServer.Proofs.Answers.Resolver
import AbnfServer.Proofs.Answers.Session
import AbnfServer.Proofs.Answers.Rename
import AbnfServer.Proofs.Answers.RenameEdits
import AbnfServer.Proofs.Answers.Replies
import AbnfServer.Proofs.Answers.Refusal
import AbnfServer.Proofs.Answers.Formatting
import AbnfServer.Proofs.Answers.PrepareRename
import AbnfServer.Proofs.Answers.References
import AbnfServer.Proofs.Settings.InForce
import AbnfServer.Proofs.Answers.Edits
import AbnfServer.Proofs.Rule.Greedy
import AbnfServer.Proofs.Rule.SymbolTable
import AbnfServer.Proofs.Answers.Symbols
import AbnfServer.Proofs.Document.Changes
import AbnfServer.Proofs.Document.Cursor
import AbnfServer.Proofs.Answers.Definition
import AbnfServer.Proofs.Answers.Messages
import AbnfServer.Proofs.Cache.Reports
