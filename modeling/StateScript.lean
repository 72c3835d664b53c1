/-
Scripts that change a JSON state: `_.set(...)` and its sister calls, found in free text and run on
the tree under one key of a state.
-/
import StateScript.Log
import StateScript.Main
import StateScript.Proofs.Arguments.Pieces
import StateScript.Proofs.Arguments.Balance
import StateScript.Proofs.Binary64.Whole
import StateScript.Proofs.Extraction.Scan
import StateScript.Proofs.Extraction.Site
import StateScript.Proofs.Extraction.Reprint
import StateScript.Proofs.Extraction.Search
import StateScript.Proofs.Extraction.Account
import StateScript.Proofs.Extraction.Lines
import StateScript.Proofs.Extraction.Places
import StateScript.Proofs.Extraction.Neutral
import StateScript.Proofs.Extraction.Agreement
import StateScript.Proofs.Json.Grammar
import StateScript.Proofs.Json.Soundness
import StateScript.Proofs.Json.Completeness
import StateScript.Proofs.Json.Numerals
import StateScript.Proofs.Json.Printing
import StateScript.Proofs.Json.Fits
import StateScript.Proofs.Json.Union
import StateScript.Proofs.Literal.Gap
import StateScript.Proofs.Literal.Quoted
import StateScript.Proofs.Literal.Numeral
import StateScript.Proofs.Literal.Term
import StateScript.Proofs.Literal.Reading
import StateScript.Proofs.Literal.Standard
import StateScript.Proofs.Literal.Walk
import StateScript.Proofs.Literal.Tracks
import StateScript.Proofs.Literal.Extent
import StateScript.Proofs.Literal.Tokens
import StateScript.Proofs.Literal.Safety
import StateScript.Proofs.Operand.RoundTrip
import StateScript.Proofs.Operand.Fits
import StateScript.Proofs.Operand.Depth
import StateScript.Proofs.Path.Spelling
import StateScript.Proofs.Tree.Frame
import StateScript.Proofs.Tree.Refusal
import StateScript.Proofs.Tree.Lens
import StateScript.Proofs.Tree.Damage
import StateScript.Proofs.Tree.Alike
import StateScript.Proofs.Tree.Edit
import StateScript.Proofs.Tree.Edits
import StateScript.Proofs.Tree.Exchange
import StateScript.Proofs.Tree.Replay
import StateScript.Proofs.Tree.Fits
import StateScript.Proofs.Tree.Removal
import StateScript.Proofs.Tree.Size
import StateScript.Proofs.Run.Step
import StateScript.Proofs.Run.Locality
import StateScript.Proofs.Run.Isolation
import StateScript.Proofs.Run.Batch
import StateScript.Proofs.Run.Revision
import StateScript.Proofs.Run.Entry
import StateScript.Proofs.Run.SetCall
import StateScript.Proofs.Run.Setting
import StateScript.Proofs.Run.Tuple
import StateScript.Proofs.Run.Wrapper
import StateScript.Proofs.Run.Counter
import StateScript.Proofs.Run.Reload
import StateScript.Proofs.Run.Growth
