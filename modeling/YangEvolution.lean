import YangEvolution.Command.Check
import YangEvolution.Command.Request
import YangEvolution.Compatibility.Catalog
import YangEvolution.Compatibility.Checker
import YangEvolution.Compatibility.Finding
import YangEvolution.Compatibility.LanguageVersion
import YangEvolution.Compatibility.ModuleChange
import YangEvolution.Compatibility.NodeChange
import YangEvolution.Compatibility.Position
import YangEvolution.Compatibility.TreeChange
import YangEvolution.Compatibility.TypeChange
import YangEvolution.Files.FileTree
import YangEvolution.Files.PathName
import YangEvolution.Loading.Imports
import YangEvolution.Loading.Loader
import YangEvolution.Loading.ModuleFile
import YangEvolution.Main
import YangEvolution.Markup.Attribute
import YangEvolution.Markup.Document
import YangEvolution.Markup.Element
import YangEvolution.Markup.Event
import YangEvolution.Markup.Fault
import YangEvolution.Markup.Reference
import YangEvolution.Markup.Token
import YangEvolution.Outcome.Except
import YangEvolution.Proofs.Additions
import YangEvolution.Proofs.Address
import YangEvolution.Proofs.Agreement
import YangEvolution.Proofs.AugmentationSplit
import YangEvolution.Proofs.CheckedRange
import YangEvolution.Proofs.CompatibleNode
import YangEvolution.Proofs.CompatibleTree
import YangEvolution.Proofs.Counterparts
import YangEvolution.Proofs.DecimalInclusion
import YangEvolution.Proofs.Expansion
import YangEvolution.Proofs.FindingCount
import YangEvolution.Proofs.FirstMatch
import YangEvolution.Proofs.ForeignElements
import YangEvolution.Proofs.ImportRun
import YangEvolution.Proofs.ImportedRevision
import YangEvolution.Proofs.Insertion
import YangEvolution.Proofs.IntervalCover
import YangEvolution.Proofs.IntervalInclusion
import YangEvolution.Proofs.LoadedNodes
import YangEvolution.Proofs.LoadedShape
import YangEvolution.Proofs.LoadedTypes
import YangEvolution.Proofs.MatchedPairs
import YangEvolution.Proofs.MissingNodes
import YangEvolution.Proofs.NodeBuilding
import YangEvolution.Proofs.NodeInvariant
import YangEvolution.Proofs.PlaceText
import YangEvolution.Proofs.PrefixRenaming
import YangEvolution.Proofs.Reading
import YangEvolution.Proofs.ReferenceChain
import YangEvolution.Proofs.Refining
import YangEvolution.Proofs.Reflexivity
import YangEvolution.Proofs.RenamedReference
import YangEvolution.Proofs.Reordering
import YangEvolution.Proofs.RepeatedLoad
import YangEvolution.Proofs.Retelling
import YangEvolution.Proofs.RetoldDocument
import YangEvolution.Proofs.RetoldModule
import YangEvolution.Proofs.RuleFamilies
import YangEvolution.Proofs.SchemaTree
import YangEvolution.Proofs.ScopeSimulation
import YangEvolution.Proofs.Skeleton
import YangEvolution.Proofs.StatementOrder
import YangEvolution.Proofs.StaticScoping
import YangEvolution.Proofs.TypeShape
import YangEvolution.Proofs.UnreadParts
import YangEvolution.Proofs.Verdict
import YangEvolution.Proofs.VersionFilter
import YangEvolution.Report.Plain
import YangEvolution.Report.Structured
import YangEvolution.Report.Terminal
import YangEvolution.Schema.Builtin
import YangEvolution.Schema.CheckedRange
import YangEvolution.Schema.Interval
import YangEvolution.Schema.Module
import YangEvolution.Schema.QName
import YangEvolution.Schema.Restriction
import YangEvolution.Schema.Revision
import YangEvolution.Schema.SchemaNode
import YangEvolution.Schema.SchemaPath
import YangEvolution.Schema.Status
import YangEvolution.Schema.TypeDef
import YangEvolution.Settings.Basic
import YangEvolution.Settings.Fault
import YangEvolution.Text.Blank
import YangEvolution.Text.Double
import YangEvolution.Text.Json
import YangEvolution.Text.Numeral
import YangEvolution.Text.Quoted
import YangEvolution.Text.Scaled
import YangEvolution.Text.Split
import YangEvolution.Text.Unseen
import YangEvolution.Text.Utf8
import YangEvolution.Toml.Document
import YangEvolution.Toml.Expression
import YangEvolution.Toml.Quotation
import YangEvolution.Toml.Scalar
import YangEvolution.Toml.Trivia
import YangEvolution.Toml.Value
import YangEvolution.Yin.Definition
import YangEvolution.Yin.Fault
import YangEvolution.Yin.ModuleSource
import YangEvolution.Yin.NodeStatement
import YangEvolution.Yin.Numbering
import YangEvolution.Yin.Refinement
import YangEvolution.Yin.Restriction
import YangEvolution.Yin.Scope
import YangEvolution.Yin.Statement
import YangEvolution.Yin.TypeStatement
import YangEvolution.Proofs.DocumentMarks
import YangEvolution.Proofs.DocumentStructure
import YangEvolution.Proofs.EscapedText
import YangEvolution.Proofs.WrittenTag
import YangEvolution.Proofs.WrittenTokens
import YangEvolution.Proofs.WrittenDocument
import YangEvolution.Proofs.CommonScale
import YangEvolution.Proofs.StatedFacets
import YangEvolution.Proofs.EffectiveFacets
import YangEvolution.Proofs.WrittenRestriction
import YangEvolution.Proofs.Replacement
import YangEvolution.Proofs.InheritedConfig
import YangEvolution.Proofs.RefinedNode
import YangEvolution.Proofs.RefinedConfig
import YangEvolution.Proofs.RefinementFrame
import YangEvolution.Proofs.AutomaticNumbers
import YangEvolution.Proofs.TextParts
import YangEvolution.Proofs.DigitText
import YangEvolution.Proofs.RevisionText
import YangEvolution.Proofs.ListingOrder
import YangEvolution.Proofs.ModuleLookup
import YangEvolution.Proofs.RestrictionText
import YangEvolution.Proofs.TreeWalks
import YangEvolution.Proofs.FirstOccurrences
import YangEvolution.Proofs.CanonicalIntervals
import YangEvolution.Proofs.DecimalLiteral
import YangEvolution.Proofs.JsonReader
import YangEvolution.Proofs.StructuredReport
import YangEvolution.Proofs.PrintedReport
import YangEvolution.Proofs.CheckOutcome
import YangEvolution.Proofs.CheckedVerdict
