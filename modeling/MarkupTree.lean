import MarkupTree.Construction
import MarkupTree.Query.Options
import MarkupTree.Query.Result
import MarkupTree.Rendering
import MarkupTree.Tree.OfText
import MarkupTree.Visit
import MarkupTree.Proofs.Namespace.Naming
import MarkupTree.Proofs.Namespace.Extension
import MarkupTree.Proofs.Path.Occurrence
import MarkupTree.Proofs.Path.Printing
import MarkupTree.Proofs.Path.Bracketed
import MarkupTree.Proofs.Query.OnePass
import MarkupTree.Proofs.Query.DocumentOrder
import MarkupTree.Proofs.Query.Requery
import MarkupTree.Proofs.Query.Renaming
import MarkupTree.Proofs.Query.Failure
import MarkupTree.Proofs.Query.Filtering
import MarkupTree.Proofs.Path.Juncture
import MarkupTree.Proofs.Query.Texts
import MarkupTree.Proofs.Rendering.TableLookup
import MarkupTree.Proofs.Json.Printed
import MarkupTree.Proofs.Rendering.Pieces
import MarkupTree.Proofs.Json.Canonical
import MarkupTree.Proofs.Tree.Written
import MarkupTree.Proofs.Tree.ReadBack
import MarkupTree.Proofs.Query.Nameless
import MarkupTree.Proofs.Query.Extraction
import MarkupTree.Proofs.Json.Numeral
import MarkupTree.Proofs.Path.WellFormed
import MarkupTree.Proofs.Tree.Reading
import MarkupTree.Proofs.Tree.Agreement
import MarkupTree.Proofs.Path.Spelling
import MarkupTree.Proofs.Query.ByAttribute
import MarkupTree.Proofs.Path.Scanning
import MarkupTree.Proofs.Path.Enclosing
import MarkupTree.Proofs.Path.Classification
import MarkupTree.Proofs.Path.Rows
import MarkupTree.Proofs.Path.Respelling
import MarkupTree.Proofs.Path.Explaining
import MarkupTree.Proofs.Query.Positions
import MarkupTree.Proofs.Query.Reordering
import MarkupTree.Proofs.Query.Descendants
import MarkupTree.Proofs.Rendering.Pruning
import MarkupTree.Proofs.Namespace.Chain
import MarkupTree.Proofs.Namespace.Forms
import MarkupTree.Proofs.Number.Whole
import MarkupTree.Proofs.Query.Visiting
import MarkupTree.Proofs.Query.Integers
import MarkupTree.Proofs.Comparison
