import BlockMachine.Main
import BlockMachine.Proofs.DecodedCode
import BlockMachine.Proofs.AssemblyCorrectness
import BlockMachine.Proofs.StaticSafety
import BlockMachine.Proofs.RecursiveEvaluation
import BlockMachine.Proofs.ReadingGrammar
import BlockMachine.Proofs.ImageRoundTrip
import BlockMachine.Proofs.WiderLimits
import BlockMachine.Proofs.ForwardJumps
import BlockMachine.Proofs.Positions
import BlockMachine.Proofs.Scanning
import BlockMachine.Proofs.PrintedForests
import BlockMachine.Proofs.AssemblyFaults
import BlockMachine.Proofs.BlockOrder
import BlockMachine.Proofs.FileWrites
import BlockMachine.Proofs.SavedPrograms
import BlockMachine.Proofs.CutImages
import BlockMachine.Proofs.PositionIndependence
import BlockMachine.Proofs.Lexemes
import BlockMachine.Proofs.AssemblerStages
import BlockMachine.Proofs.LayoutTables
import BlockMachine.Proofs.RejectedCharacters
import BlockMachine.Proofs.Outline
import BlockMachine.Proofs.ReadErrors
import BlockMachine.Proofs.StackFaults
import BlockMachine.Proofs.FailingSteps
import BlockMachine.Proofs.FetchedItems
import BlockMachine.Proofs.FirstFaults
import BlockMachine.Proofs.ConstantPool
import BlockMachine.Proofs.EntryChoice
import BlockMachine.Proofs.ExactArithmetic
import BlockMachine.Proofs.LimitFaults
import BlockMachine.Proofs.AppendedParts
import BlockMachine.Proofs.TiledRanges
import BlockMachine.Proofs.CutFields
import BlockMachine.Proofs.BoundedDelivery
import BlockMachine.Proofs.FileSessions
import BlockMachine.Proofs.Listings
import BlockMachine.Proofs.NumberLiterals
import BlockMachine.Proofs.StackSessions
import BlockMachine.Proofs.ScanSessions
import BlockMachine.Proofs.CursorReading
import BlockMachine.Proofs.ReadSessions
