import Grapher.Session
import Grapher.Main
import Grapher.Proofs.Chains
import Grapher.Proofs.Environments
import Grapher.Proofs.Grammar
import Grapher.Proofs.Scan
import Grapher.Proofs.Sentences
import Grapher.Proofs.Contents
import Grapher.Proofs.Commas
import Grapher.Proofs.Gaps
import Grapher.Proofs.Faults
import Grapher.Proofs.Places
import Grapher.Proofs.GuardedScan
import Grapher.Proofs.Shunting
import Grapher.Proofs.GuardedRun
import Grapher.Proofs.Language
import Grapher.Proofs.Redeclare
import Grapher.Proofs.Reachable
import Grapher.Proofs.Invariant
import Grapher.Proofs.Sessions
import Grapher.Proofs.Lapses
import Grapher.Proofs.Points
import Grapher.Proofs.Interleaving
import Grapher.Proofs.Reopen
import Grapher.Proofs.Archives
import Grapher.Proofs.InPlace
import Grapher.Proofs.Frames
import Grapher.Proofs.Evaluation
import Grapher.Proofs.Names
import Grapher.Proofs.Dialogues
import Grapher.Proofs.Prompts
import Grapher.Proofs.Systems
import Grapher.Proofs.Endings
import Grapher.Proofs.Accounts
import Grapher.Proofs.Composition
import Grapher.Proofs.Misreadings
import Grapher.Proofs.Cursor
import Grapher.Proofs.Lexemes
import Grapher.Proofs.Starting
import Grapher.Proofs.Dependence
import Grapher.Proofs.Suggestions
import Grapher.Proofs.Widening
import Grapher.Proofs.Rereading
import Grapher.Proofs.Stars
import Grapher.Proofs.Products
import Grapher.Proofs.NearestEven
import Grapher.Proofs.Binary64
import Grapher.Proofs.RoundedOperations
import Grapher.Proofs.Progress
import Grapher.Proofs.RoundedQuotients
import Grapher.Proofs.Remainders
import Grapher.Proofs.Hints
import Grapher.Proofs.Blanks
import Grapher.Proofs.BestMatch
import Grapher.Proofs.Decimals
import Grapher.Proofs.ShortestDigits
import Grapher.Proofs.Numerals
import Grapher.Proofs.Carets
import Grapher.Proofs.Histories
import Grapher.Proofs.Lines
