import MailMerge.Files.System
import MailMerge.Main
import MailMerge.Proofs.Formatting
import MailMerge.Proofs.Idempotence
import MailMerge.Proofs.Inert
import MailMerge.Proofs.JsonText
import MailMerge.Proofs.WrittenForm
import MailMerge.Proofs.Nesting
import MailMerge.Proofs.EventTree
import MailMerge.Proofs.Rendering
import MailMerge.Proofs.SingleUse
import MailMerge.Proofs.FilledOnce
import MailMerge.Proofs.MissingTable
import MailMerge.Proofs.FilledTable
import MailMerge.Proofs.Listing
import MailMerge.Proofs.FileMerge
import MailMerge.Proofs.GeneratedTable
import MailMerge.Proofs.TwoWays
import MailMerge.Proofs.Rebasing
import MailMerge.Proofs.Commuting
import MailMerge.Proofs.Spans
import MailMerge.Proofs.Spelling
import MailMerge.Proofs.Grammar
import MailMerge.Proofs.Stretches
import MailMerge.Proofs.DocumentOrder
import MailMerge.Proofs.Lockstep
import MailMerge.Proofs.CopyNames
import MailMerge.Proofs.Mending
import MailMerge.Proofs.SelfDelimiting
