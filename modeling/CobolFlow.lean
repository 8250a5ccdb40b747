import CobolFlow.Graph.Defect
import CobolFlow.Main
import CobolFlow.Proofs.Blocks
import CobolFlow.Proofs.Calls.Aside
import CobolFlow.Proofs.Calls.Capture
import CobolFlow.Proofs.Calls.Copies
import CobolFlow.Proofs.Calls.Cycles
import CobolFlow.Proofs.Calls.Filing
import CobolFlow.Proofs.Calls.Growth
import CobolFlow.Proofs.Calls.Nesting
import CobolFlow.Proofs.Calls.Results
import CobolFlow.Proofs.Calls.Splicing
import CobolFlow.Proofs.Calls.Tour
import CobolFlow.Proofs.Calls.Unplaced
import CobolFlow.Proofs.Catalog.Lookup
import CobolFlow.Proofs.Catalog.Order
import CobolFlow.Proofs.Catalog.Ranges
import CobolFlow.Proofs.Catalog.Uses
import CobolFlow.Proofs.Continuation
import CobolFlow.Proofs.Dangling
import CobolFlow.Proofs.Declaratives
import CobolFlow.Proofs.Depth
import CobolFlow.Proofs.Division.Beginning
import CobolFlow.Proofs.Division.Body
import CobolFlow.Proofs.Division.Chapters
import CobolFlow.Proofs.Division.Course
import CobolFlow.Proofs.Division.Items
import CobolFlow.Proofs.Division.Jumps
import CobolFlow.Proofs.Division.Ledger
import CobolFlow.Proofs.Division.Links
import CobolFlow.Proofs.Division.Numbering
import CobolFlow.Proofs.Division.Opening
import CobolFlow.Proofs.Division.Outline
import CobolFlow.Proofs.Division.Passes
import CobolFlow.Proofs.Division.Plan
import CobolFlow.Proofs.Division.Regions
import CobolFlow.Proofs.Division.Straight
import CobolFlow.Proofs.Division.Texts
import CobolFlow.Proofs.Division.Units
import CobolFlow.Proofs.Drawing.Course
import CobolFlow.Proofs.Drawing.Labels
import CobolFlow.Proofs.Drawing.LooseEnds
import CobolFlow.Proofs.Drawing.Once
import CobolFlow.Proofs.Ensures
import CobolFlow.Proofs.Entrances
import CobolFlow.Proofs.Errands
import CobolFlow.Proofs.Faultless
import CobolFlow.Proofs.Faultless.Decision
import CobolFlow.Proofs.Faultless.Division
import CobolFlow.Proofs.Faultless.Graph
import CobolFlow.Proofs.Faultless.Procedures
import CobolFlow.Proofs.Faultless.Replay
import CobolFlow.Proofs.Faultless.Resolution
import CobolFlow.Proofs.Faultless.Scope
import CobolFlow.Proofs.Faultless.Splice
import CobolFlow.Proofs.Gates
import CobolFlow.Proofs.Groups
import CobolFlow.Proofs.Insulation
import CobolFlow.Proofs.Joins
import CobolFlow.Proofs.Json.Decoding
import CobolFlow.Proofs.Json.Nesting
import CobolFlow.Proofs.Json.Reading
import CobolFlow.Proofs.Json.Scanning
import CobolFlow.Proofs.Leaving
import CobolFlow.Proofs.Listings
import CobolFlow.Proofs.Lowerings
import CobolFlow.Proofs.Modes
import CobolFlow.Proofs.NormalForm
import CobolFlow.Proofs.Passages
import CobolFlow.Proofs.Place.Admits
import CobolFlow.Proofs.Place.Conditional
import CobolFlow.Proofs.Place.Crossing
import CobolFlow.Proofs.Place.Division
import CobolFlow.Proofs.Place.Lasting
import CobolFlow.Proofs.Precedence
import CobolFlow.Proofs.Protocol
import CobolFlow.Proofs.Registry
import CobolFlow.Proofs.Reports
import CobolFlow.Proofs.Returns
import CobolFlow.Proofs.RoundTrip
import CobolFlow.Proofs.Searches
import CobolFlow.Proofs.Sentences
import CobolFlow.Proofs.Structured
import CobolFlow.Proofs.Targets
import CobolFlow.Proofs.Terminals
import CobolFlow.Proofs.Trace.Advance
import CobolFlow.Proofs.Trace.Alternatives
import CobolFlow.Proofs.Trace.Behaviour
import CobolFlow.Proofs.Trace.Bundle
import CobolFlow.Proofs.Trace.Cascade
import CobolFlow.Proofs.Trace.Closing
import CobolFlow.Proofs.Trace.Decisions
import CobolFlow.Proofs.Trace.Drawing
import CobolFlow.Proofs.Trace.Erasure
import CobolFlow.Proofs.Trace.Fragment
import CobolFlow.Proofs.Trace.Guarded
import CobolFlow.Proofs.Trace.Loop
import CobolFlow.Proofs.Trace.Looping
import CobolFlow.Proofs.Trace.Meaning
import CobolFlow.Proofs.Trace.Rounds
import CobolFlow.Proofs.Trace.Search
import CobolFlow.Proofs.Trace.Searching
import CobolFlow.Proofs.Trace.Simple
import CobolFlow.Proofs.Trace.Since
import CobolFlow.Proofs.Unresolved
import CobolFlow.Proofs.Walk.Checked
import CobolFlow.Proofs.Walk.Confined
import CobolFlow.Proofs.Walk.Coverage
import CobolFlow.Proofs.Walk.Drawing
import CobolFlow.Proofs.Walk.Ends
import CobolFlow.Proofs.Walk.Predecessors
import CobolFlow.Proofs.Walk.Preorder
import CobolFlow.Proofs.Walk.Stack
import CobolFlow.Proofs.Writing.Constructs
import CobolFlow.Proofs.Writing.Desk
import CobolFlow.Proofs.Writing.Divisions
import CobolFlow.Proofs.Writing.Grammar
import CobolFlow.Proofs.Writing.Pages
import CobolFlow.Proofs.Writing.Statements
import CobolFlow.Tree.Encode
