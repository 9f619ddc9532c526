import HeaderOutline.DocComment
import HeaderOutline.HeaderFile
import HeaderOutline.Json.DocTarget
import HeaderOutline.Json.Outline
import HeaderOutline.Json.Settings
import HeaderOutline.Scaffold
import HeaderOutline.Trace
import HeaderOutline.Proofs.Course
import HeaderOutline.Proofs.Move
import HeaderOutline.Proofs.Balance
import HeaderOutline.Proofs.Completeness
import HeaderOutline.Proofs.Nesting
import HeaderOutline.Proofs.Shape
import HeaderOutline.Proofs.TypeCoverage
import HeaderOutline.Proofs.CleanPrefix
import HeaderOutline.Proofs.LineBreaks
import HeaderOutline.Proofs.LineGroups
import HeaderOutline.Proofs.OwnBraces
import HeaderOutline.Proofs.WrittenText
import HeaderOutline.Proofs.WrittenTypes
import HeaderOutline.Proofs.CanonicalText
import HeaderOutline.Proofs.InterfaceSyntax
import HeaderOutline.Proofs.InterfaceReading
import HeaderOutline.Proofs.InterfaceCompleteness
import HeaderOutline.Proofs.SkeletonText
import HeaderOutline.Proofs.SkeletonPieces
import HeaderOutline.Proofs.SkeletonCompleteness
import HeaderOutline.Proofs.UnseenLines
import HeaderOutline.Proofs.Fragments
import HeaderOutline.Proofs.Continuations
import HeaderOutline.Proofs.Directives
import HeaderOutline.Proofs.DocTargets
import HeaderOutline.Proofs.CommentLines
import HeaderOutline.Proofs.DocInsertion
import HeaderOutline.Proofs.OutlineIntegrity
import HeaderOutline.Proofs.LineAttribution
import HeaderOutline.Proofs.LinkageHeads
import HeaderOutline.Proofs.LinkageBlocks
import HeaderOutline.Proofs.SplitLinkage
import HeaderOutline.Proofs.Effects
import HeaderOutline.Proofs.BraceAccounting
import HeaderOutline.Proofs.AccessLevels
import HeaderOutline.Proofs.LineAccounting
import HeaderOutline.Proofs.ScaffoldClasses
import HeaderOutline.Proofs.SessionHistory
import HeaderOutline.Proofs.StrippedLines
import HeaderOutline.Proofs.EnumLines
import HeaderOutline.Proofs.CompleteMembers
import HeaderOutline.Proofs.BodySkipping
import HeaderOutline.Proofs.DocCoverage
import HeaderOutline.Proofs.ReportedNames
import HeaderOutline.Proofs.AddedDefaults
import HeaderOutline.Proofs.MergeRate
import HeaderOutline.Proofs.TestNames
import HeaderOutline.Proofs.Fixtures
import HeaderOutline.Proofs.TerminatedDeclarations
import HeaderOutline.Proofs.AverageTime
import HeaderOutline.Proofs.JsonForms
import HeaderOutline.Proofs.ByteLexer
