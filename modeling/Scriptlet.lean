import Scriptlet.Inspect
import Scriptlet.Session
import Scriptlet.Scanner
import Scriptlet.Proofs.Scanning
import Scriptlet.Proofs.Scanning.Spelling
import Scriptlet.Proofs.Scanning.Tiling
import Scriptlet.Proofs.Scanning.Positions
import Scriptlet.Proofs.Grammar
import Scriptlet.Proofs.Grammar.Reading
import Scriptlet.Proofs.Grammar.Rules
import Scriptlet.Proofs.Grammar.Acceptance
import Scriptlet.Proofs.Grammar.Progress
import Scriptlet.Proofs.Grammar.Products
import Scriptlet.Proofs.Grammar.Places
import Scriptlet.Proofs.Grammar.Prediction
import Scriptlet.Proofs.Grammar.Completion
import Scriptlet.Proofs.Grammar.Tracking
import Scriptlet.Proofs.Grammar.TrackedRules
import Scriptlet.Proofs.Diagnosis
import Scriptlet.Proofs.Printing.Trees
import Scriptlet.Proofs.Printing.Words
import Scriptlet.Proofs.Printing.Rereading
import Scriptlet.Proofs.Printing.Decoding
import Scriptlet.Proofs.Machine
import Scriptlet.Proofs.Machine.Adequacy
import Scriptlet.Proofs.Machine.Invariant
import Scriptlet.Proofs.Machine.Preservation
import Scriptlet.Proofs.Signals
import Scriptlet.Proofs.Isolation
import Scriptlet.Proofs.Reachability
import Scriptlet.Proofs.Constants
import Scriptlet.Proofs.Scopes
import Scriptlet.Proofs.Arithmetic
import Scriptlet.Proofs.Joining.Tokens
import Scriptlet.Proofs.Joining.Trees
import Scriptlet.Proofs.Joining.Braces
import Scriptlet.Proofs.Joining.Grammar
import Scriptlet.Proofs.Joining.Values
import Scriptlet.Proofs.Joining.Operations
import Scriptlet.Proofs.Joining.Evaluation
import Scriptlet.Proofs.Joining.Sessions
import Scriptlet.Proofs.Signals.Natives
import Scriptlet.Environments
import Scriptlet.Proofs.Forest.Tables
import Scriptlet.Proofs.Forest.Reached
import Scriptlet.Proofs.Forest
import Scriptlet.Proofs.Forest.Walks
import Scriptlet.Proofs.Contents
import Scriptlet.Proofs.Unnamed.Clear
import Scriptlet.Proofs.Unnamed
import Scriptlet.Proofs.Joining.Following
import Scriptlet.Proofs.Grammar.Chains
import Scriptlet.Proofs.Grammar.Abreast
import Scriptlet.Proofs.Grammar.Openings
import Scriptlet.Proofs.Grammar.Gaps
import Scriptlet.Proofs.Diagnosis.Order
import Scriptlet.Proofs.Recovery
import Scriptlet.Proofs.Recovery.Blocks
import Scriptlet.Proofs.Display
import Scriptlet.Proofs.Display.Cycles
import Scriptlet.Proofs.Histories
import Scriptlet.Proofs.Histories.Hashes
import Scriptlet.Proofs.Loops
import Scriptlet.Proofs.Termination.Heights
import Scriptlet.Proofs.Termination
import Scriptlet.Proofs.Depth
import Scriptlet.Proofs.Returns
import Scriptlet.Proofs.Splicing
import Scriptlet.Proofs.Contexts
import Scriptlet.Proofs.Grammar.Unplaced
import Scriptlet.Proofs.Spacing
import Scriptlet.Proofs.Scanning.Octets
import Scriptlet.Proofs.Grammar.Building
import Scriptlet.Proofs.InPlace
import Scriptlet.Proofs.Data.ReadBack
import Scriptlet.Proofs.Numerals
import Scriptlet.Proofs.Registries
import Scriptlet.Proofs.Equality
import Scriptlet.Proofs.Calls
import Scriptlet.Proofs.Grammar.Cutting
