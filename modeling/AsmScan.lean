import AsmScan.Main
import AsmScan.Scanner.Session
import AsmScan.Input.Operation
import AsmScan.Proofs.Input.Stack
import AsmScan.Proofs.Keyword
import AsmScan.Proofs.Lexeme.Alone
import AsmScan.Proofs.Lexeme.Apart
import AsmScan.Proofs.Lexeme.Gap
import AsmScan.Proofs.Lexeme.Lexes
import AsmScan.Proofs.Lexeme.Rule
import AsmScan.Proofs.Lexeme.Spelling
import AsmScan.Proofs.Numeral
import AsmScan.Proofs.Numeral.Tally
import AsmScan.Proofs.Scanner.Alike
import AsmScan.Proofs.Scanner.Call
import AsmScan.Proofs.Scanner.Chunk
import AsmScan.Proofs.Scanner.Enter
import AsmScan.Proofs.Scanner.Frame
import AsmScan.Proofs.Scanner.Line
import AsmScan.Proofs.Scanner.RoundTrip
import AsmScan.Proofs.Scanner.Split
import AsmScan.Proofs.SortedTable
import AsmScan.Proofs.Scanner.Local
import AsmScan.Proofs.Scanner.Session
import AsmScan.Proofs.Scanner.Query
import AsmScan.Proofs.Scanner.Progress
import AsmScan.Proofs.Lexeme.Case
import AsmScan.Proofs.Scanner.Case
import AsmScan.Proofs.Scanner.Separator
import AsmScan.Proofs.Scanner.Ending
import AsmScan.Proofs.Scanner.Refusal
import AsmScan.Proofs.Scanner.Number
import AsmScan.Proofs.Scanner.Format
import AsmScan.Proofs.Scanner.Literal
import AsmScan.Proofs.Scanner.Feature
import AsmScan.Proofs.Scanner.Recast
import AsmScan.Proofs.CommandLine.Run
import AsmScan.Proofs.Lexeme.Classify
import AsmScan.Proofs.Lexeme.Decode
import AsmScan.Proofs.Lexeme.Extent
import AsmScan.Proofs.Lexeme.Verbatim
import AsmScan.Proofs.Scanner.Quoted
import AsmScan.Proofs.Scanner.Word
import AsmScan.Proofs.Lexeme.Longest
import AsmScan.Proofs.Lexeme.Backslash
import AsmScan.Proofs.Scanner.LastLine
import AsmScan.Proofs.Scanner.Operator
import AsmScan.Proofs.Scanner.Beside
import AsmScan.Proofs.Scanner.Continuation
import AsmScan.Proofs.Scanner.Backslash
import AsmScan.Proofs.Scanner.Failure
import AsmScan.Proofs.CommandLine.Table
import AsmScan.Proofs.Scanner.Origin
