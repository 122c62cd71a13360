import IntelAsm.Buffer
import IntelAsm.CommandLine.FileTree
import IntelAsm.Data.Diagnostic
import IntelAsm.Embed
import IntelAsm.Main
import IntelAsm.Proofs.Failure
import IntelAsm.Proofs.IntervalFacts
import IntelAsm.Proofs.ByteFacts
import IntelAsm.Proofs.SelectFacts
import IntelAsm.Proofs.LinkFacts
import IntelAsm.Proofs.EncodeFacts
import IntelAsm.Proofs.ScanFacts
import IntelAsm.Proofs.SourceTiling
import IntelAsm.Proofs.SessionFacts
import IntelAsm.Proofs.FailedCalls
import IntelAsm.Proofs.SessionLimits
import IntelAsm.Proofs.Revision
import IntelAsm.Proofs.PlaceRevision
import IntelAsm.Proofs.AddressFacts
import IntelAsm.Proofs.AddressRegisters
import IntelAsm.Proofs.InstructionLength
import IntelAsm.Proofs.FieldRange
import IntelAsm.Proofs.AddressDecode
import IntelAsm.Proofs.LabelBounds
import IntelAsm.Proofs.SymbolicImmediate
import IntelAsm.Proofs.AddressValue
import IntelAsm.Proofs.Folding
import IntelAsm.Proofs.Relocation
import IntelAsm.Proofs.Layout
import IntelAsm.Proofs.Containment
import IntelAsm.Proofs.NumberSpelling
import IntelAsm.Proofs.OperandDecode
import IntelAsm.Proofs.RowOverlap
import IntelAsm.Proofs.ShortestEncoding
import IntelAsm.Proofs.ParseAgreement
import IntelAsm.Proofs.ExprGrammar
import IntelAsm.Proofs.LineRecovery
import IntelAsm.Proofs.ReportedLines
import IntelAsm.Proofs.SourcePieces
import IntelAsm.Proofs.StructuralErrors
import IntelAsm.Proofs.SymbolUse
import IntelAsm.Proofs.FieldOrigin
import IntelAsm.Proofs.LinkReport
import IntelAsm.Proofs.LinkRevision
import IntelAsm.Proofs.SessionCode
import IntelAsm.Proofs.SymbolRenaming
import IntelAsm.Proofs.FreshSymbols
import IntelAsm.Proofs.PositionIndependence
import IntelAsm.Proofs.CaseFolding
import IntelAsm.Proofs.ExprText
import IntelAsm.Proofs.DataRoundTrip
import IntelAsm.Proofs.LiteralText
import IntelAsm.Proofs.ParserCursor
import IntelAsm.Proofs.SpanNesting
import IntelAsm.Proofs.StatementOrigin
import IntelAsm.Proofs.ListingRows
import IntelAsm.Proofs.WrittenFiles
