import LoopLang.Cursor.Session
import LoopLang.Outcome
import LoopLang.Reader.Lemmas
import LoopLang.Tree.Layout
import LoopLang.Tree.Sexpr
import LoopLang.Tree.Walk
import LoopLang.Proofs.Grammar.Derivation
import LoopLang.Proofs.Reading.Steps
import LoopLang.Proofs.Lexing.Spelling
import LoopLang.Proofs.Reading.Contract
import LoopLang.Proofs.Reading.Constructs
import LoopLang.Proofs.Reading.Loops
import LoopLang.Proofs.Reading.Expressions
import LoopLang.Proofs.Reading.Simple
import LoopLang.Proofs.Reading.Attempts
import LoopLang.Proofs.Reading.Recovery
import LoopLang.Proofs.Reading.Blocks
import LoopLang.Proofs.Reading.Chains
import LoopLang.Proofs.Reading.Statements
import LoopLang.Proofs.Lexing.Tokens
import LoopLang.Proofs.Outcome.Order
import LoopLang.Proofs.Accepting.Expressions
import LoopLang.Proofs.Accepting.Simple
import LoopLang.Proofs.Accepting.Statements
import LoopLang.Proofs.Grammar.Nesting
import LoopLang.Proofs.Outcome.Exactness
import LoopLang.Proofs.Reading.Frames
import LoopLang.Proofs.Tree.Relocation
import LoopLang.Proofs.Simulation.Basic
import LoopLang.Proofs.Simulation.Recovery
import LoopLang.Proofs.Simulation.Expressions
import LoopLang.Proofs.Simulation.Statements
import LoopLang.Proofs.Outcome.FirstDiagnostic
import LoopLang.Proofs.Printing.Derivation
import LoopLang.Proofs.Lexing.Texts
import LoopLang.Proofs.Printing.Pages
import LoopLang.Proofs.Outcome.RoundTrip
import LoopLang.Proofs.Outcome.StrayCharacters
import LoopLang.Proofs.Outcome.Segments
import LoopLang.Proofs.Blocks.Endings
import LoopLang.Proofs.Blocks.Balance
import LoopLang.Proofs.Grammar.Cuts
import LoopLang.Proofs.Blocks.Misplaced
import LoopLang.Proofs.Lexing.Lines
import LoopLang.Proofs.Outcome.MisplacedChains
import LoopLang.Proofs.Grammar.Moving
import LoopLang.Proofs.Reading.Lines
import LoopLang.Proofs.Blocks.Items
import LoopLang.Proofs.Blocks.Closing
import LoopLang.Proofs.Outcome.OwnEnd
import LoopLang.Proofs.Outcome.EndOfInput
import LoopLang.Proofs.Outcome.Below
import LoopLang.Proofs.Outcome.Composition
import LoopLang.Proofs.Pieces.Faults
import LoopLang.Proofs.Pieces.Isolation
import LoopLang.Proofs.Outcome.StatementPieces
import LoopLang.Proofs.Outcome.BodyPieces
import LoopLang.Proofs.Outcome.Trace
import LoopLang.Proofs.Printing.Parentheses
import LoopLang.Proofs.Outcome.CanonicalText
import LoopLang.Proofs.Tree.Nodes
import LoopLang.Proofs.Outcome.Limits
import LoopLang.Proofs.Reading.Invariants
import LoopLang.Proofs.Reading.Nearsight
import LoopLang.Proofs.Outcome.NestingLimit
import LoopLang.Proofs.Outcome.Layout
import LoopLang.Proofs.Outcome.PrintedTrees
import LoopLang.Proofs.Lexing.Places
import LoopLang.Proofs.Outcome.TreePlaces
import LoopLang.Proofs.Outcome.Causality
import LoopLang.Proofs.Lexing.UniqueSplit
import LoopLang.Proofs.Lexing.Sessions
import LoopLang.Proofs.Tree.Preorder
import LoopLang.Proofs.Tree.Decoding
import LoopLang.Proofs.Outcome.Mentions
import LoopLang.Proofs.Printing.Sexprs
import LoopLang.Proofs.Tree.Shapes
import LoopLang.Proofs.Outcome.Renderings
import LoopLang.Proofs.Lexing.Locations
import LoopLang.Proofs.Lexing.Joining
import LoopLang.Proofs.Reading.Progress
import LoopLang.Proofs.Outcome.Progress
import LoopLang.Proofs.Blocks.Boundaries
import LoopLang.Proofs.Printing.Appending
import LoopLang.Proofs.Blocks.PassedOver
import LoopLang.Proofs.Outcome.Resumption
import LoopLang.Proofs.Outcome.ComparisonPlaces
