import TemplateBlocks.Main
import TemplateBlocks.Proofs.Session
import TemplateBlocks.Proofs.Visibility
import TemplateBlocks.Proofs.MoveHazards
import TemplateBlocks.Proofs.OrderHazards
import TemplateBlocks.Proofs.MovedOrder
import TemplateBlocks.Proofs.NestedFlow
import TemplateBlocks.Proofs.OutlineBreaks
import TemplateBlocks.Proofs.RewriteBreaks
import TemplateBlocks.Proofs.LineMarkers
import TemplateBlocks.Proofs.Pairing
import TemplateBlocks.Proofs.Matching
import TemplateBlocks.Proofs.MaximalBlocks
import TemplateBlocks.Proofs.DocumentReaders
import TemplateBlocks.Proofs.ReportedBlocks
import TemplateBlocks.Proofs.BlockExtent
import TemplateBlocks.Proofs.MarkerPlaces
import TemplateBlocks.Proofs.MarkerSeams
import TemplateBlocks.Proofs.BodyLens
import TemplateBlocks.Proofs.MarkedStretches
import TemplateBlocks.Proofs.MovedText
import TemplateBlocks.Proofs.ControlDepth
import TemplateBlocks.Proofs.NestedControls
import TemplateBlocks.Proofs.DetectedBlocks
import TemplateBlocks.Proofs.Movability
import TemplateBlocks.Proofs.Relocation
import TemplateBlocks.Proofs.TagGrammar
import TemplateBlocks.Proofs.UnknownNames
import TemplateBlocks.Proofs.Repair
import TemplateBlocks.Proofs.Assignments
import TemplateBlocks.Proofs.Comparisons
import TemplateBlocks.Proofs.ConditionalBalance
import TemplateBlocks.Proofs.BodyFrame
import TemplateBlocks.Proofs.HazardLabels
import TemplateBlocks.Proofs.FixtureChecks
import TemplateBlocks.Proofs.FixtureRuns
import TemplateBlocks.Proofs.FrontMatter
import TemplateBlocks.Proofs.OneLineBlocks
