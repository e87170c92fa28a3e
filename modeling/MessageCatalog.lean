import MessageCatalog.Bytes
import MessageCatalog.Catalog.Basic
import MessageCatalog.Catalog.Duplicates
import MessageCatalog.Catalog.Entry
import MessageCatalog.Catalog.Forms
import MessageCatalog.Catalog.Index
import MessageCatalog.Catalog.Interchange
import MessageCatalog.Catalog.Merge
import MessageCatalog.Catalog.Sorted
import MessageCatalog.Catalog.Store
import MessageCatalog.CommandLine.Arguments
import MessageCatalog.CommandLine.Execution
import MessageCatalog.Compiled.Block
import MessageCatalog.Compiled.ContextTable
import MessageCatalog.Compiled.Decode
import MessageCatalog.Compiled.Encode
import MessageCatalog.Compiled.Error
import MessageCatalog.Compiled.File
import MessageCatalog.Compiled.Hash
import MessageCatalog.Compiled.Lookup
import MessageCatalog.Compiled.Record
import MessageCatalog.Compiled.Selection
import MessageCatalog.Compiled.Tag
import MessageCatalog.Diagnostics
import MessageCatalog.FileSystem.Basic
import MessageCatalog.FileSystem.Memory
import MessageCatalog.Json.Fields
import MessageCatalog.Json.Parser
import MessageCatalog.Json.Printer
import MessageCatalog.Json.Value
import MessageCatalog.Locale.Code
import MessageCatalog.Locale.FileName
import MessageCatalog.Locale.Language
import MessageCatalog.Locale.Territory
import MessageCatalog.Main
import MessageCatalog.Path
import MessageCatalog.Plural.Gettext
import MessageCatalog.Plural.Program
import MessageCatalog.Plural.Report
import MessageCatalog.Plural.Selection
import MessageCatalog.Plural.Table
import MessageCatalog.Proofs.ContextTable
import MessageCatalog.Proofs.FileReading
import MessageCatalog.Proofs.KeyOrder
import MessageCatalog.Proofs.LanguageGuess
import MessageCatalog.Proofs.Lookup
import MessageCatalog.Proofs.LookupRun
import MessageCatalog.Proofs.PluralForms
import MessageCatalog.Proofs.RecordReading
import MessageCatalog.Proofs.RecordSet
import MessageCatalog.Proofs.ReleasedForms
import MessageCatalog.Proofs.RoundTrip
import MessageCatalog.Proofs.Size
import MessageCatalog.Proofs.Utf16
import MessageCatalog.Proofs.Wire
import MessageCatalog.Release.Basic
import MessageCatalog.Release.Files
import MessageCatalog.Remark
import MessageCatalog.Settings.Basic
import MessageCatalog.Settings.Project
import MessageCatalog.Text.Blank
import MessageCatalog.Text.Hex
import MessageCatalog.Text.Map
import MessageCatalog.Text.Split
import MessageCatalog.Text.Utf16
import MessageCatalog.Text.Utf8
import MessageCatalog.Proofs.Folding
import MessageCatalog.Proofs.Indexing
import MessageCatalog.Proofs.StoreRun
import MessageCatalog.Proofs.StoreLookup
import MessageCatalog.Proofs.ReleasedKeys
import MessageCatalog.Proofs.Recompiling
import MessageCatalog.Proofs.SqueezedLookup
import MessageCatalog.Proofs.FoldedGroups
import MessageCatalog.Proofs.SortedInsertion
import MessageCatalog.Proofs.Merging
import MessageCatalog.Proofs.BlockReading
import MessageCatalog.Proofs.TextFaults
import MessageCatalog.Proofs.Truncation
import MessageCatalog.Proofs.BlockOrder
import MessageCatalog.Proofs.EntryOrder
import MessageCatalog.Proofs.Restoring
import MessageCatalog.Proofs.StrippedRemark
import MessageCatalog.Proofs.TranslatorWork
import MessageCatalog.Proofs.JsonReading
import MessageCatalog.Proofs.Interchange
import MessageCatalog.Proofs.RecordCount
import MessageCatalog.Proofs.Overlaying
import MessageCatalog.Proofs.MergedRelease
import MessageCatalog.Proofs.CommentBlocks
import MessageCatalog.Proofs.Rescanning
import MessageCatalog.Proofs.Bracketing
import MessageCatalog.Proofs.Precedence
import MessageCatalog.Proofs.IdenticalTranslations
import MessageCatalog.Proofs.RuleGrammar
import MessageCatalog.Proofs.RuleSpelling
import MessageCatalog.Proofs.RuleSelection
import MessageCatalog.Proofs.GettextHeaders
import MessageCatalog.Proofs.ContextLayout
import MessageCatalog.Proofs.RecordEnds
import MessageCatalog.Proofs.StrippedSize
import MessageCatalog.Proofs.HashRange
import MessageCatalog.Proofs.SurrogatePairs
