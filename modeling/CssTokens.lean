import CssTokens.Utf8
import CssTokens.Kind
import CssTokens.Byte
import CssTokens.Source
import CssTokens.Source.Search
import CssTokens.Reading
import CssTokens.Cursor
import CssTokens.Cursor.Word
import CssTokens.Cursor.Enclosed
import CssTokens.Cursor.Group
import CssTokens.Lexeme
import CssTokens.OpenParens
import CssTokens.Scanner
import CssTokens.Scanner.Progress
import CssTokens.Position
import CssTokens.LineIndex
import CssTokens.Token
import CssTokens.Failure
import CssTokens.Input
import CssTokens.Event
import CssTokens.Tokenizer
import CssTokens.Tokenizer.Collect
import CssTokens.Json.Text
import CssTokens.Json.Value
import CssTokens.Json.Symbol
import CssTokens.Json.Reader
import CssTokens.Options
import CssTokens.Options.Json
import CssTokens.Token.Json
import CssTokens.Proofs.ByteRules
import CssTokens.Proofs.CursorRest
import CssTokens.Proofs.CursorEnclosed
import CssTokens.Proofs.OpenParenMemo
import CssTokens.Proofs.ScannerRules
import CssTokens.Proofs.Utf8Encoding
import CssTokens.Proofs.LexemeShape
import CssTokens.Proofs.ScannerSound
import CssTokens.Proofs.Copies
import CssTokens.Proofs.ContextFree
import CssTokens.Proofs.LineRules
import CssTokens.Proofs.LineLookup
import CssTokens.Proofs.CharWalk
import CssTokens.Proofs.TokenizerRules
import CssTokens.Proofs.ExactPositions
import CssTokens.Proofs.TokenStream
import CssTokens.Proofs.Lossless
import CssTokens.Proofs.RecoveryRuns
import CssTokens.Proofs.GroupAlignment
import CssTokens.Proofs.LexemeAlignment
import CssTokens.Proofs.Pushback
import CssTokens.Proofs.ScannerRun
import CssTokens.Proofs.AbandonedGroups
import CssTokens.Proofs.GroupSearches
import CssTokens.Proofs.DisjointSearches
import CssTokens.Proofs.LexemeAppend
import CssTokens.Proofs.PrefixStability
import CssTokens.Proofs.LexemeAlone
import CssTokens.Proofs.TokensAlone
import CssTokens.Proofs.Session
import CssTokens.Proofs.CheckedCursor
import CssTokens.Proofs.EndAndPosition
import CssTokens.Proofs.EventLog
import CssTokens.Proofs.CheckedScanner
import CssTokens.Proofs.SafeScanning
import CssTokens.Proofs.Characters
import CssTokens.Proofs.NextLexeme
import CssTokens.Proofs.GroupDepth
import CssTokens.Proofs.WordUnits
import CssTokens.Proofs.ClosingDelimiters
import CssTokens.Proofs.LineTerminators
import CssTokens.Proofs.LineTable
import CssTokens.Proofs.FoundTokens
import CssTokens.Proofs.HintedLookups
import CssTokens.Proofs.ReadingOrder
import CssTokens.Proofs.LineSeam
import CssTokens.Proofs.MemoInvariant
import CssTokens.Proofs.MessageReading
import CssTokens.Proofs.JsonText
import CssTokens.Proofs.JsonRoundTrip
import CssTokens.Proofs.TokensJson
import CssTokens.Proofs.SplitLineBreaks
import CssTokens.Proofs.FastSkips
import CssTokens.Proofs.ForeignTexts
import CssTokens.Proofs.FastLineTable
