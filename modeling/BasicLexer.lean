import BasicLexer.Input.FileTree
import BasicLexer.Main
import BasicLexer.Proofs.Client.Breaches
import BasicLexer.Proofs.Client.History
import BasicLexer.Proofs.Client.Pending
import BasicLexer.Proofs.Client.Registry
import BasicLexer.Proofs.Client.Reports
import BasicLexer.Proofs.Client.TakingBack
import BasicLexer.Proofs.Command.Output
import BasicLexer.Proofs.Command.SearchList
import BasicLexer.Proofs.Diagnostic.Collectors
import BasicLexer.Proofs.Diagnostic.Templates
import BasicLexer.Proofs.Input.Finding
import BasicLexer.Proofs.Listing.Ordinary
import BasicLexer.Proofs.Listing.Remarks
import BasicLexer.Proofs.Listing.Termination
import BasicLexer.Proofs.Options.Configurations
import BasicLexer.Proofs.OrderedSet.Runs
import BasicLexer.Proofs.Reading.Lookahead
import BasicLexer.Proofs.Scanner.AllLines
import BasicLexer.Proofs.Scanner.Carets
import BasicLexer.Proofs.Scanner.CommentedLines
import BasicLexer.Proofs.Scanner.Concatenation
import BasicLexer.Proofs.Scanner.Deliveries
import BasicLexer.Proofs.Scanner.Groups
import BasicLexer.Proofs.Scanner.Lengths
import BasicLexer.Proofs.Scanner.Limits
import BasicLexer.Proofs.Scanner.LineEnds
import BasicLexer.Proofs.Scanner.NumberLiterals
import BasicLexer.Proofs.Scanner.PlainLines
import BasicLexer.Proofs.Scanner.Redaction
import BasicLexer.Proofs.Scanner.Rescan
import BasicLexer.Proofs.Scanner.StringLiterals
import BasicLexer.Proofs.Scanner.UpperCase
import BasicLexer.Scanner.Script
