import LocaleSync.Bytes
import LocaleSync.CommandLine.Arguments
import LocaleSync.CommandLine.Flag
import LocaleSync.CommandLine.Help
import LocaleSync.CommandLine.Run
import LocaleSync.Config
import LocaleSync.Config.Document
import LocaleSync.Config.Load
import LocaleSync.ConflictAction
import LocaleSync.Discovery
import LocaleSync.Document.Json
import LocaleSync.Document.Toml
import LocaleSync.Document.Toml.Scalar
import LocaleSync.Document.Toml.Table
import LocaleSync.Document.Value
import LocaleSync.Error
import LocaleSync.Format
import LocaleSync.Language
import LocaleSync.Language.Document
import LocaleSync.LocaleFile
import LocaleSync.Main
import LocaleSync.Note
import LocaleSync.Page
import LocaleSync.Path
import LocaleSync.Placeholder
import LocaleSync.Proofs.Config.Validation
import LocaleSync.Proofs.Discovery
import LocaleSync.Proofs.Format.Merging
import LocaleSync.Proofs.Format.Table
import LocaleSync.Proofs.LocaleFile.Renaming
import LocaleSync.Proofs.Path.NormalForm
import LocaleSync.Proofs.Path.Parent
import LocaleSync.Proofs.Path.Position
import LocaleSync.Proofs.Path.Shape
import LocaleSync.Proofs.Path.Steps
import LocaleSync.Proofs.ProjectFiles
import LocaleSync.Proofs.ProjectFiles.Order
import LocaleSync.Proofs.Pull.Accounting
import LocaleSync.Proofs.Pull.Convergence
import LocaleSync.Proofs.Pull.Keeping
import LocaleSync.Proofs.Pull.Requested
import LocaleSync.Proofs.Pull.Selection
import LocaleSync.Proofs.Pull.Turns
import LocaleSync.Proofs.PullPattern.Languages
import LocaleSync.Proofs.PullPattern.PageNames
import LocaleSync.Proofs.Push.Protocol
import LocaleSync.Proofs.Push.Sorting
import LocaleSync.Proofs.Push.UniqueNames
import LocaleSync.Proofs.PushPattern.Compiled
import LocaleSync.Proofs.PushPattern.Cut
import LocaleSync.Proofs.PushPattern.Expression
import LocaleSync.Proofs.PushPattern.LetterCase
import LocaleSync.Proofs.PushPattern.Reachable
import LocaleSync.Proofs.Regex
import LocaleSync.Proofs.Registry
import LocaleSync.Proofs.Registry.Canonical
import LocaleSync.Proofs.Registry.Keys
import LocaleSync.Proofs.Registry.Precedence
import LocaleSync.Proofs.RoundTrip
import LocaleSync.Proofs.Session
import LocaleSync.Proofs.Storage.Change
import LocaleSync.Proofs.Storage.Coverage
import LocaleSync.Proofs.Storage.Leads
import LocaleSync.Proofs.Storage.Persistence
import LocaleSync.Proofs.Storage.Safe
import LocaleSync.Proofs.Storage.Walk
import LocaleSync.Proofs.Storage.Ways
import LocaleSync.Proofs.Storage.Writing
import LocaleSync.Proofs.Template
import LocaleSync.Proofs.Template.Checks
import LocaleSync.Proofs.Template.Normal
import LocaleSync.Proofs.Text.Casing
import LocaleSync.Proofs.Text.Index
import LocaleSync.Proofs.Text.Letters
import LocaleSync.Pull
import LocaleSync.PullPattern
import LocaleSync.Push
import LocaleSync.PushPattern
import LocaleSync.Recognition
import LocaleSync.Regex
import LocaleSync.Registry
import LocaleSync.Service
import LocaleSync.Session
import LocaleSync.Storage.Basic
import LocaleSync.Storage.Change
import LocaleSync.Storage.Resolve
import LocaleSync.Storage.Walk
import LocaleSync.Template
import LocaleSync.Text.Basic
import LocaleSync.Text.Blank
import LocaleSync.Text.CaseTable
import LocaleSync.Text.Casing
import LocaleSync.Text.Index
