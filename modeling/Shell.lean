import Shell.Lib.Rounding
import Shell.Lib.Generator
import Shell.Lib.Runs
import Shell.Stringbuilder
import Shell.StringbuilderRuns
import Shell.Hashtable
import Shell.HashtableRuns
import Shell.HashtableFrame
import Shell.HashtableGetn
import Shell.HashtableResize
import Shell.HashtableSize
import Shell.HashtableRemove
import Shell.HashtableClear
import Shell.Lib.LinkedList
import Shell.HashtableEntryset
import Shell.HashtableFork
import Shell.Parsetypes
import Shell.Lib.Separated
import Shell.Lib.SeparatedLanguage
import Shell.Parser
import Shell.ParserReference
import Shell.ParserVectors
import Shell.ParserGrammar
import Shell.ParserErrors
import Shell.Andor
import Shell.AndorDocumented
import Shell.Lexer
import Shell.LexerRender
import Shell.Expand
import Shell.Exec
import Shell.CommandLine
import Shell.ExpandQuoting
import Shell.WordSegments
import Shell.NestedSubstitution
import Shell.ExpandCursor
import Shell.ExpandCursorEnd
import Shell.QuotedArguments
import Shell.LexerWalk
import Shell.LexerWord
import Shell.EscapedWord
import Shell.DoubleQuotedWord
import Shell.ExecPasses
import Shell.NullLookups
import Shell.Jobs
import Shell.Reaping
import Shell.PrintJobs
import Shell.JobListSize
import Shell.Completion
import Shell.CurrentWord
import Shell.PreviousWord
import Shell.Variables
import Shell.Path
import Shell.AssignmentSplit
import Shell.LooseVariables
import Shell.BracedWord
import Shell.Lib.Descriptors
import Shell.Pipes
import Shell.PipelineStatus
import Shell.Redirections
import Shell.RedirectionErrors
import Shell.LexerRuns
import Shell.LexerEoi
import Shell.LexerSpans
import Shell.LexerErrors
import Shell.LexerAtomic
import Shell.LexerFd
import Shell.LexerLexemes
import Shell.NewlineTokens
import Shell.AssignmentWord
import Shell.ExpandCalls
import Shell.Repl
import Shell.SubstitutionDepth
import Shell.JoinText
import Shell.JoinRoundTrip
import Shell.HashtableGrowth
import Shell.LexerReading
import Shell.StringbuilderFormat
import Shell.DeclareOperand
import Shell.CaptureOutput
import Shell.History
import Shell.HistoryAppend
import Shell.FirstWord
import Shell.ExternalCompleter
import Shell.CompletionFunction
import Shell.Lib.Refine
import Shell.ExpandRefines
import Shell.ParserStrings
import Shell.ExecRefines
import Shell.Lib.SeparatedJoin
import Shell.ListRoundTrip
import Shell.ExecSequence
import Shell.Lib.BinarySearch
import Shell.HashtableMap
import Shell.VariableTable
import Shell.Builtins
import Shell.SessionInvariant
import Shell.ShellHost
import Shell.BuiltinLines
import Shell.SessionDescriptors
import Shell.ScriptCompletion
import Shell.OfferedCommands
import Shell.ForegroundJobs
import Shell.HistoryFile
