import Daybook.Balance
import Daybook.CommandLine.Run
import Daybook.Conversion
import Daybook.Main
import Daybook.Pool
import Daybook.Worker
import Daybook.Proofs.Line
import Daybook.Proofs.Reading
import Daybook.Proofs.Token.Amount
import Daybook.Proofs.Token.Literal
import Daybook.Proofs.Metadata
import Daybook.Proofs.Transaction
import Daybook.Proofs.Directive
import Daybook.Proofs.Cursor
import Daybook.Proofs.Walk
import Daybook.Proofs.Concatenation
import Daybook.Proofs.Flaw
import Daybook.Proofs.LongInteger
import Daybook.Proofs.Outcome
import Daybook.Proofs.Worker
import Daybook.Proofs.Quotes
import Daybook.Proofs.Interior
import Daybook.Proofs.Coverage
import Daybook.Proofs.Balance
import Daybook.Proofs.Settled
import Daybook.Proofs.Outline
import Daybook.Proofs.Comment
import Daybook.Proofs.ObjectField
import Daybook.Proofs.Written.Literal
import Daybook.Proofs.Written.Metadata
import Daybook.Proofs.Written.Schema
import Daybook.Proofs.Written.Transaction
import Daybook.Proofs.Written.Document
import Daybook.Proofs.Order
import Daybook.Proofs.Place
import Daybook.Proofs.Termination
import Daybook.Proofs.Unclosed
import Daybook.Proofs.Loop
import Daybook.Proofs.Excerpt
import Daybook.Proofs.Extension
import Daybook.Proofs.Inference
import Daybook.Proofs.Batch
import Daybook.Proofs.Pool
import Daybook.Proofs.Quotation
import Daybook.Proofs.Written.Heading
import Daybook.Proofs.Automaton
import Daybook.Proofs.Check
import Daybook.Proofs.Semicolon
import Daybook.Proofs.Block
import Daybook.Proofs.Recovery
import Daybook.Proofs.Optional
import Daybook.Proofs.Written.Array
import Daybook.Proofs.Token.Address
import Daybook.Proofs.Labels
import Daybook.Proofs.Rejection
import Daybook.Proofs.Manifest
import Daybook.Proofs.Conversion
import Daybook.Proofs.Lookup
import Daybook.Proofs.Locality
import Daybook.Proofs.Decimal
import Daybook.Proofs.Coercion
