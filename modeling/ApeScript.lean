import ApeScript.File.References
import ApeScript.File.Validation
import ApeScript.Script.Writer
import ApeScript.Text.Letter
import ApeScript.Compile.Program
import ApeScript.Charset.Basic
import ApeScript.Text.Excerpt
import ApeScript.Text.Digest
import ApeScript.Listing
import ApeScript.Yaml.Outline
import ApeScript.Catalog.Row
import ApeScript.Localization.Compiled
import ApeScript.Localization.ScriptText
import ApeScript.FileTree
import ApeScript.Work.Pool
import ApeScript.Graph.Query
import ApeScript.Settings.Dotenv
import ApeScript.Main
import ApeScript.Proofs.RoundTrip
import ApeScript.Proofs.CompiledFile
import ApeScript.Proofs.CompilerRun
import ApeScript.Proofs.EmittedSwitch
import ApeScript.Proofs.Rounding
import ApeScript.Proofs.Evaluation
import ApeScript.Proofs.Execution
import ApeScript.Proofs.SimplifiedSwitch
import ApeScript.Proofs.PairedRun
import ApeScript.Proofs.PairedSwitch
import ApeScript.Proofs.PairedWindow
import ApeScript.Proofs.Optimized
import ApeScript.Proofs.Reading
import ApeScript.Proofs.Respelled
import ApeScript.Proofs.Truncated
import ApeScript.Proofs.Representable
import ApeScript.Proofs.Offsets
import ApeScript.Proofs.Variant
import ApeScript.Proofs.CarriedSwitch
import ApeScript.Proofs.CarriedWindow
import ApeScript.Proofs.CarriedFile
import ApeScript.Proofs.InlineLabels
import ApeScript.Proofs.Spelling
import ApeScript.Proofs.NearestWord
import ApeScript.Proofs.DecimalText
import ApeScript.Proofs.WindowScript
import ApeScript.Proofs.WindowLines
import ApeScript.Proofs.CamLine
import ApeScript.Proofs.VariableLines
import ApeScript.Proofs.CommandLines
import ApeScript.Proofs.RereadCommand
import ApeScript.Proofs.PoolRun
import ApeScript.Proofs.Pieces
import ApeScript.Proofs.PathNames
import ApeScript.Proofs.WrittenTree
import ApeScript.Proofs.BatchRun
import ApeScript.Proofs.Characters
import ApeScript.Proofs.FilledTable
import ApeScript.Proofs.RebuiltScript
import ApeScript.Proofs.ReferenceGraph
import ApeScript.Proofs.Nesting
import ApeScript.Proofs.CollectedCommands
import ApeScript.Proofs.EnclosedCommands
import ApeScript.Proofs.SkeletonLines
import ApeScript.Proofs.NestedWindow
import ApeScript.Proofs.NestedSwitch
import ApeScript.Proofs.NestedScript
import ApeScript.Proofs.RecoveredBlock
import ApeScript.Proofs.ExpressionText
import ApeScript.Proofs.RereadExpression
import ApeScript.Proofs.FormatText
import ApeScript.Proofs.RereadFormat
import ApeScript.Proofs.CanonicalOrder
import ApeScript.Proofs.PrecedenceClimbing
import ApeScript.Proofs.Elsewhere
import ApeScript.Proofs.MovedSwitch
import ApeScript.Proofs.LineEnds
import ApeScript.Proofs.StatementText
import ApeScript.Proofs.OptionalBraces
import ApeScript.Proofs.LocalizedFile
import ApeScript.Proofs.ListedTexts
import ApeScript.Proofs.TranslatedScript
import ApeScript.Proofs.ConstantFolding
import ApeScript.Proofs.StrippedComments
import ApeScript.Proofs.TrackedLexer
import ApeScript.Proofs.SitedScript
import ApeScript.Proofs.Diagnostics
import ApeScript.Proofs.CutLines
import ApeScript.Proofs.SubstitutedMacros
import ApeScript.Proofs.OriginalLines
import ApeScript.Proofs.LookAhead
import ApeScript.Proofs.ReferenceReport
import ApeScript.Proofs.ReturnTarget
import ApeScript.Proofs.HashFlag
import ApeScript.Proofs.TranslatedTable
import ApeScript.Proofs.CutText
import ApeScript.Proofs.NumberText
import ApeScript.Proofs.TiledSource
import ApeScript.Proofs.LiteralTokens
import ApeScript.Proofs.LabelText
import ApeScript.Proofs.LexerProgress
import ApeScript.Proofs.ProgressingScript
import ApeScript.Proofs.ProgressingWindow
import ApeScript.Proofs.Termination
import ApeScript.Proofs.NameHash
import ApeScript.Proofs.Previews
import ApeScript.Proofs.CursorCalls
import ApeScript.Proofs.FlagNames
import ApeScript.Proofs.SpelledFile
