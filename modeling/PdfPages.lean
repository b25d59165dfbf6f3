import PdfPages.Inheritance
import PdfPages.Node.Count
import PdfPages.Node.Leaves
import PdfPages.Node.Link
import PdfPages.Rectangle.Record
import PdfPages.Release
import PdfPages.Proofs.Entry
import PdfPages.Proofs.Chain
import PdfPages.Proofs.Search
import PdfPages.Proofs.Filling
import PdfPages.Proofs.Frame
import PdfPages.Proofs.Visit
import PdfPages.Proofs.Unfolding
import PdfPages.Proofs.Ascent
import PdfPages.Proofs.Recount
import PdfPages.Proofs.Tally
import PdfPages.Proofs.Answers
import PdfPages.Proofs.Counts
import PdfPages.Proofs.ArrayEntry
import PdfPages.Proofs.ArrayEdits
import PdfPages.Proofs.FailedEdits
import PdfPages.Proofs.Declaring
import PdfPages.Proofs.Unlinking
import PdfPages.Proofs.Undoing
import PdfPages.Proofs.ArrayFrame
import PdfPages.Proofs.KidsView
import PdfPages.Proofs.Linking
import PdfPages.Proofs.Forest
import PdfPages.Proofs.Nesting
import PdfPages.Proofs.Session
import PdfPages.Proofs.Directions
import PdfPages.Proofs.Extension
import PdfPages.Proofs.Parallel
import PdfPages.Proofs.Deepening
import PdfPages.Proofs.Ledger
import PdfPages.Proofs.Blank
import PdfPages.Proofs.EntryEdits
import PdfPages.Proofs.Effective
import PdfPages.Proofs.Stopping
import PdfPages.Proofs.Reports
import PdfPages.Proofs.Balance
