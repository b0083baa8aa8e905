import RepositoryManager.Lib.ByteString
import RepositoryManager.Lib.Interaction
import RepositoryManager.Lib.ProcessPool
import RepositoryManager.Lib.SharedCell
import RepositoryManager.Lib.ShellWords
import RepositoryManager.Lib.Paren
import RepositoryManager.Utils
import RepositoryManager.Grammar
import RepositoryManager.Policy
import RepositoryManager.Credential
import RepositoryManager.AstWalker
import RepositoryManager.WalkRecovery
import RepositoryManager.Calls
import RepositoryManager.SecurityService
import RepositoryManager.Verification
import RepositoryManager.TransportService
import RepositoryManager.Sessions
import RepositoryManager.Signature
import RepositoryManager.Decision
import RepositoryManager.Server
import RepositoryManager.Schedules
import RepositoryManager.Authorization
import RepositoryManager.Freshness
import RepositoryManager.Isolation
import RepositoryManager.Injection
import RepositoryManager.Quoting
import RepositoryManager.Confinement
import RepositoryManager.SignedText
import RepositoryManager.WalkTermination
import RepositoryManager.IdleShutdown
import RepositoryManager.Descriptors
import RepositoryManager.ValidityWindow
import RepositoryManager.QueryThread
import RepositoryManager.Segmentation
import RepositoryManager.Lib.Scanner
import RepositoryManager.CyclicDfa
import RepositoryManager.LexerTables
import RepositoryManager.Lexer
import RepositoryManager.LexerStems
import RepositoryManager.LexerPrediction
import RepositoryManager.LexerReading
import RepositoryManager.LexerTermination
import RepositoryManager.CredentialTokens
import RepositoryManager.Parser
import RepositoryManager.Printing
import RepositoryManager.LineEnds
import RepositoryManager.Rejection
import RepositoryManager.PolicySafety
import RepositoryManager.Queries
import RepositoryManager.SessionEnd
import RepositoryManager.Accepting
import RepositoryManager.TimeWindow
import RepositoryManager.Markers
import RepositoryManager.Splitting
import RepositoryManager.Derivations
import RepositoryManager.RecoveringParser
import RepositoryManager.SyntaxErrors
import RepositoryManager.Lib.Recorded
import RepositoryManager.Lengths
import RepositoryManager.Lib.LinkedList
import RepositoryManager.FifoQueue
import RepositoryManager.Timer
import RepositoryManager.ReceiveLoop
import RepositoryManager.RuleSplitting
import RepositoryManager.Comments
import RepositoryManager.TranscriptReading
import RepositoryManager.Lib.Horn
import RepositoryManager.Lib.Contexts
import RepositoryManager.Statements
import RepositoryManager.Importing
import RepositoryManager.UniqueReading
import RepositoryManager.Monitor
import RepositoryManager.Lib.Typestate
import RepositoryManager.Conversation
import RepositoryManager.SyntaxTree
import RepositoryManager.Admitting
import RepositoryManager.Lib.Sieve
import RepositoryManager.TokenStream
import RepositoryManager.ParserCode
import RepositoryManager.StreamParser
import RepositoryManager.Startup
import RepositoryManager.Grants
import RepositoryManager.TreeBuilding
import RepositoryManager.Lib.Guarded
import RepositoryManager.SharedQueue
import RepositoryManager.Messages
import RepositoryManager.CharStream
import RepositoryManager.StreamLexer
import RepositoryManager.Mending
import RepositoryManager.Exchanges
