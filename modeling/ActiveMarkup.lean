import ActiveMarkup.Expr.Statement
import ActiveMarkup.Json
import ActiveMarkup.Document.Element
import ActiveMarkup.Document.Basic
import ActiveMarkup.Document.Edit
import ActiveMarkup.Markup.Entity
import ActiveMarkup.Markup.Piece
import ActiveMarkup.Markup.Tree
import ActiveMarkup.Document.Markup
import ActiveMarkup.Document.Query
import ActiveMarkup.Document.Property
import ActiveMarkup.Directive
import ActiveMarkup.Host.Recorder
import ActiveMarkup.Host.Console
import ActiveMarkup.Host.Tripwire
import ActiveMarkup.Session.Scan
import ActiveMarkup.Command.Run
import ActiveMarkup.Main
import ActiveMarkup.Proofs.Document.History
import ActiveMarkup.Proofs.Document.RoundTrip
import ActiveMarkup.Proofs.Session.Insertions
import ActiveMarkup.Proofs.Session.Termination
import ActiveMarkup.Proofs.Session.Renesting
import ActiveMarkup.Proofs.Session.Frontier
import ActiveMarkup.Proofs.Expr.Grammar
import ActiveMarkup.Proofs.Expr.Height
import ActiveMarkup.Proofs.Session.Bodies
import ActiveMarkup.Proofs.Session.Once
import ActiveMarkup.Proofs.Selector.Grammar
import ActiveMarkup.Proofs.Selector.Composition
import ActiveMarkup.Proofs.Document.TextContent
import ActiveMarkup.Proofs.Session.Contracts
import ActiveMarkup.Proofs.Session.Handles
import ActiveMarkup.Proofs.Session.Interruption
import ActiveMarkup.Proofs.Session.Growth
import ActiveMarkup.Proofs.Session.Loops
import ActiveMarkup.Proofs.Session.Rounds
import ActiveMarkup.Proofs.Document.BreakOff
import ActiveMarkup.Proofs.Document.Fragments
import ActiveMarkup.Proofs.Document.Properties
import ActiveMarkup.Proofs.Document.Queries
import ActiveMarkup.Proofs.Document.Styles
import ActiveMarkup.Proofs.Selector.Conjunction
import ActiveMarkup.Proofs.Selector.Acceptance
import ActiveMarkup.Proofs.Selector.Lookup
import ActiveMarkup.Proofs.Expr.Assignment
import ActiveMarkup.Proofs.Expr.Substitution
import ActiveMarkup.Proofs.Document.Numbering
import ActiveMarkup.Proofs.Expr.Tiling
import ActiveMarkup.Proofs.Session.Leftovers
import ActiveMarkup.Proofs.Value.Equality
import ActiveMarkup.Proofs.Decimal.Longest
import ActiveMarkup.Proofs.Expr.Counting
import ActiveMarkup.Proofs.Markup.References
