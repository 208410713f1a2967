import Concentric.Cancellation
import Concentric.Main
import Concentric.Position.Pair
import Concentric.Proofs.BatchAgreement
import Concentric.Proofs.CacheTransparency
import Concentric.Proofs.CursorCover
import Concentric.Proofs.Expansion
import Concentric.Proofs.HeadingsKept
import Concentric.Proofs.RequestCourse
import Concentric.Proofs.RunEnding
import Concentric.Proofs.SlugNames
import Concentric.Proofs.StrictNesting
import Concentric.Proofs.WholeLines
import Concentric.Report.Plain
import Concentric.Request
import Concentric.Proofs.LineBreaks
import Concentric.Proofs.WrittenTexts
import Concentric.Proofs.SettingsLayers
import Concentric.Proofs.ListWalk
import Concentric.Proofs.EnclosingTokens
import Concentric.Proofs.LineLookup
import Concentric.Proofs.BlockMerges
import Concentric.Proofs.DepthCaps
import Concentric.Proofs.InputOrder
import Concentric.Proofs.RecentStreams
import Concentric.Proofs.ExactCodecs
import Concentric.Proofs.JsonLimits
import Concentric.Proofs.SettingsFile
import Concentric.Proofs.PositionReading
import Concentric.Proofs.SettingsSaved
import Concentric.Proofs.CallbackRuns
import Concentric.Proofs.SavingFrame
import Concentric.Proofs.SettingsSpelled
