import Retrace.Text.Blank
import Retrace.Text.Cut
import Retrace.Text.Pattern
import Retrace.Decimal
import Retrace.Json.Basic
import Retrace.Json.Number
import Retrace.Json.Quoted
import Retrace.Json.Draft
import Retrace.Json.Reader
import Retrace.Json.Record
import Retrace.Json.Printer
import Retrace.Signature
import Retrace.Selection
import Retrace.Event
import Retrace.Settings
import Retrace.Settings.File
import Retrace.Batch
import Retrace.Model
import Retrace.Execution
import Retrace.Message
import Retrace.Fault
import Retrace.Notice
import Retrace.Tracker
import Retrace.Reconstruction
import Retrace.Report.Text
import Retrace.Report.Document
import Retrace.CommandLine
import Retrace.Program
import Retrace.Main
import Retrace.Proofs.Arrival
import Retrace.Proofs.Nesting
import Retrace.Proofs.Conversion
import Retrace.Proofs.Frames
import Retrace.Proofs.Moves
import Retrace.Proofs.History
import Retrace.Proofs.Balance
import Retrace.Proofs.Lockstep
import Retrace.Proofs.Lifetimes
import Retrace.Proofs.Sequencing
import Retrace.Proofs.Timing
import Retrace.Proofs.Causality
import Retrace.Proofs.Entities
import Retrace.Proofs.Accounting
import Retrace.Proofs.Forest
import Retrace.Proofs.Recovery
import Retrace.Proofs.Closing
import Retrace.Proofs.Retelling
import Retrace.Proofs.Exactness
import Retrace.Proofs.Insertion
import Retrace.Proofs.Faults
import Retrace.Proofs.Conservation
import Retrace.Proofs.Callers
import Retrace.Pool
import Retrace.Proofs.Interference
import Retrace.Proofs.Turns
import Retrace.Proofs.Workers
import Retrace.Proofs.Solitude
import Retrace.Proofs.Literals
import Retrace.Proofs.Spelling
import Retrace.Proofs.Records
import Retrace.Proofs.Deliveries
import Retrace.Proofs.Documents
import Retrace.Proofs.Registries
import Retrace.Proofs.Requests
import Retrace.Proofs.Integrity
import Retrace.Proofs.Origins
import Retrace.Proofs.Cuts
import Retrace.Proofs.Sections
import Retrace.Proofs.Keys
import Retrace.Proofs.Atomicity
import Retrace.Proofs.Unmarked
import Retrace.Proofs.Identity
import Retrace.Proofs.Attribution
import Retrace.Proofs.Classes
import Retrace.Proofs.Words
import Retrace.Proofs.Grammar
import Retrace.Proofs.NormalForms
import Retrace.Proofs.Constructors
import Retrace.Proofs.Numerals
import Retrace.Proofs.Expressions
import Retrace.Proofs.Intake
import Retrace.Proofs.Decoding
import Retrace.Proofs.Offers
import Retrace.Proofs.AllOrNothing
import Retrace.Proofs.Durations
