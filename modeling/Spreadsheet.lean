import Spreadsheet.Archive.Build
import Spreadsheet.Book.Field
import Spreadsheet.Book.Release
import Spreadsheet.Book.Save
import Spreadsheet.Proofs.Archive.Saving
import Spreadsheet.Proofs.Book.Requests
import Spreadsheet.Proofs.Grid.Written
import Spreadsheet.Proofs.Formula.RoundTrip
import Spreadsheet.Proofs.Markup.Escape
import Spreadsheet.Proofs.Markup.Merging
import Spreadsheet.Proofs.Markup.Tokens
import Spreadsheet.Proofs.Markup.RoundTrip
import Spreadsheet.Proofs.Markup.Parsed
import Spreadsheet.Proofs.Markup.Canonical
import Spreadsheet.Proofs.Book.Cells
import Spreadsheet.Proofs.Book.Updating
import Spreadsheet.Proofs.Book.Parts
import Spreadsheet.Proofs.Book.Unsaved
import Spreadsheet.Proofs.Book.Drafts
import Spreadsheet.Proofs.Book.Restoring
import Spreadsheet.Proofs.Book.Reopening
import Spreadsheet.Proofs.Archive.Lengths
import Spreadsheet.Proofs.Archive.Gapless
import Spreadsheet.Proofs.Book.Tables
import Spreadsheet.Proofs.Book.Packages
import Spreadsheet.Proofs.Book.Texts
import Spreadsheet.Proofs.Grid.Moving
import Spreadsheet.Proofs.Formula.Displacements
import Spreadsheet.Proofs.Formula.Relocation
import Spreadsheet.Proofs.Book.Cycles
import Spreadsheet.Proofs.Book.Resaving
import Spreadsheet.Proofs.Formula.Wildcards
import Spreadsheet.Proofs.Book.Lasting
import Spreadsheet.Proofs.Book.Numbering
import Spreadsheet.Proofs.Formula.Transcripts
import Spreadsheet.Proofs.Formula.Aggregates
import Spreadsheet.Proofs.Grid.Notation
import Spreadsheet.Proofs.Grid.Walks
import Spreadsheet.Proofs.Markup.Nesting
import Spreadsheet.Proofs.Markup.Sharing
import Spreadsheet.Proofs.Book.Additions
import Spreadsheet.Proofs.Book.Assignments
import Spreadsheet.Archive.Guarded
import Spreadsheet.Proofs.Archive.Bounds
import Spreadsheet.Proofs.Archive.Comments
import Spreadsheet.Proofs.Archive.Overwriting
import Spreadsheet.Book.SaveSteps
import Spreadsheet.Proofs.Book.Atomicity
import Spreadsheet.Proofs.Value.Comparing
import Spreadsheet.Proofs.Formula.Matching
import Spreadsheet.Book.EscapeScan
import Spreadsheet.Proofs.Book.Escapes
import Spreadsheet.Book.IndexedTable
import Spreadsheet.Proofs.Book.Indexed
import Spreadsheet.Proofs.Book.Resolving
import Spreadsheet.Proofs.Grid.Columns
import Spreadsheet.Proofs.Value.Kinds
