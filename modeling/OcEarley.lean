import OcEarley.Base.Error
import OcEarley.Base.Lists
import OcEarley.Base.Method
import OcEarley.Base.Result
import OcEarley.Base.Worklist
import OcEarley.Base.Rounds
import OcEarley.Formal.Yield
import OcEarley.Formal.Blocks
import OcEarley.Formal.Useful
import OcEarley.Formal.Chart
import OcEarley.Formal.Pattern
import OcEarley.Formal.PrefixCode
import OcEarley.Formal.Regex
import OcEarley.Formal.PatternSyntax
import OcEarley.Formal.Lr
import OcEarley.Formal.LrMachine
import OcEarley.Formal.LrTermination
import OcEarley.Formal.Kleene
import OcEarley.Formal.Scc
import OcEarley.Formal.Buckets
import OcEarley.Grammar.Grammar
import OcEarley.Grammar.Productive
import OcEarley.Grammar.Reduce
import OcEarley.Grammar.Useless
import OcEarley.Schema.Types
import OcEarley.Schema.Number
import OcEarley.Schema.NumberValue
import OcEarley.Schema.NumberExact
import OcEarley.Schema.Json
import OcEarley.Schema.Canonical
import OcEarley.Schema.Location
import OcEarley.Schema.Normalize
import OcEarley.Schema.Pointer
import OcEarley.Schema.Coverage
import OcEarley.Schema.Arena
import OcEarley.Schema.EnumExact
import OcEarley.Schema.TypeLanguage
import OcEarley.Grammar.Lower
import OcEarley.Grammar.Builder
import OcEarley.Grammar.LowerArray
import OcEarley.Grammar.LowerObject
import OcEarley.Grammar.LowerSized
import OcEarley.Grammar.LowerBlocks
import OcEarley.Grammar.TerminalText
import OcEarley.Grammar.Expression
import OcEarley.Grammar.Rendering
import OcEarley.Grammar.Reversal
import OcEarley.Grammar.Terminal
import OcEarley.Grammar.Renumber
import OcEarley.Grammar.Scc
import OcEarley.Grammar.SccExact
import OcEarley.Grammar.Certify
import OcEarley.Grammar.Components
import OcEarley.Grammar.CertifyExact
import OcEarley.Grammar.LowerExact
import OcEarley.Schema.Tidy
import OcEarley.Grammar.Elimination
import OcEarley.Grammar.CertifyRun
import OcEarley.Grammar.Liveness
import OcEarley.Grammar.Automaton
import OcEarley.Grammar.Residual
import OcEarley.Grammar.Collapse
import OcEarley.Grammar.Retained
import OcEarley.Grammar.CollapseExact
import OcEarley.Earley.Compiled
import OcEarley.Earley.Recognizer
import OcEarley.Earley.Effect
import OcEarley.Earley.Column
import OcEarley.Earley.Invariant
import OcEarley.Earley.Saturate
import OcEarley.Earley.Exact
import OcEarley.Earley.Language
import OcEarley.Earley.Saturation
import OcEarley.Lalr.Build
import OcEarley.Lalr.Recognizer
import OcEarley.Lalr.First
import OcEarley.Lalr.Items
import OcEarley.Lalr.States
import OcEarley.Lalr.Cores
import OcEarley.Lalr.Table
import OcEarley.Lalr.Lexical
import OcEarley.Lalr.LexicalExact
import OcEarley.Lalr.Reductions
import OcEarley.Lalr.Candidates
import OcEarley.Lalr.Exact
import OcEarley.Lalr.Termination
import OcEarley.Lalr.Totality
import OcEarley.Lalr.Construction
import OcEarley.Vocabulary.Basic
import OcEarley.Vocabulary.Reverse
import OcEarley.Vocabulary.Trie
import OcEarley.Vocabulary.Exact
import OcEarley.Index.Project
import OcEarley.Index.Exact
import OcEarley.Index.Stranded
import OcEarley.Index.Refusal
import OcEarley.Engine.Recognizer
import OcEarley.Earley.Frame
import OcEarley.Earley.Counts
import OcEarley.Engine.Transaction
import OcEarley.Engine.Chart
import OcEarley.Engine.Session
import OcEarley.Engine.Guide
import OcEarley.Engine.Compile
import OcEarley.Engine.Walk
import OcEarley.Engine.Replay
import OcEarley.Engine.Mask
import OcEarley.Engine.History
import OcEarley.Engine.Committed
import OcEarley.Lalr.Frame
import OcEarley.Lalr.Limits
import OcEarley.Earley.Limits
import OcEarley.Engine.Limits
import OcEarley.Engine.GuideLimits
import OcEarley.Engine.Live
import OcEarley.Engine.MaskExact
import OcEarley.Engine.Validation
import OcEarley.Engine.Decides
import OcEarley.Engine.Prepare
import OcEarley.Engine.Agreement
import OcEarley.Engine.Generation
import OcEarley.Grammar.ReduceExact
import OcEarley.Grammar.Texts
import OcEarley.Grammar.JsonTexts
