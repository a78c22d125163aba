import Lemmata.Catalogs.Basic
import Lemmata.Catalogs.Selection
import Lemmata.Closure.Catalog
import Lemmata.Closure.Proof
import Lemmata.Closure.Rule
import Lemmata.Closure.Schema
import Lemmata.Connective.Conjunction
import Lemmata.Connective.Detachment
import Lemmata.Equivalence.Catalog
import Lemmata.Equivalence.Proof
import Lemmata.Equivalence.Rule
import Lemmata.Json.Basic
import Lemmata.Json.Layout
import Lemmata.Json.Lexeme
import Lemmata.Json.Reader
import Lemmata.Main
import Lemmata.Mining.Skip
import Lemmata.Proofs.Closure.Canonical
import Lemmata.Proofs.Closure.Catalog
import Lemmata.Proofs.Closure.Conservation
import Lemmata.Proofs.Closure.Decision
import Lemmata.Proofs.Closure.Generalization
import Lemmata.Proofs.Closure.History
import Lemmata.Proofs.Closure.Implication
import Lemmata.Proofs.Closure.Index
import Lemmata.Proofs.Closure.Interchange
import Lemmata.Proofs.Closure.Listing
import Lemmata.Proofs.Closure.Recognition
import Lemmata.Proofs.Closure.Schema
import Lemmata.Proofs.Closure.Soundness
import Lemmata.Proofs.Closure.Synthesis
import Lemmata.Proofs.Closure.Visits
import Lemmata.Proofs.Connective.Additions
import Lemmata.Proofs.Connective.Application
import Lemmata.Proofs.Connective.Conjunction
import Lemmata.Proofs.Connective.Detachment
import Lemmata.Proofs.Connective.Operators
import Lemmata.Proofs.Connective.Separation
import Lemmata.Proofs.Equivalence.Algebra
import Lemmata.Proofs.Equivalence.Catalog
import Lemmata.Proofs.Equivalence.Chains
import Lemmata.Proofs.Equivalence.Relations
import Lemmata.Proofs.Lists
import Lemmata.Proofs.Mining.Names
import Lemmata.Proofs.Mining.Positions
import Lemmata.Proofs.Mining.Renaming
import Lemmata.Proofs.Registry
import Lemmata.Proofs.Report.Faithful
import Lemmata.Proofs.Sequence
import Lemmata.Proofs.Spelling.Printer
import Lemmata.Proofs.Spelling.Reader
import Lemmata.Proofs.Spelling.Token
import Lemmata.Proofs.Term.Basic
import Lemmata.Proofs.Term.Order
import Lemmata.Proofs.Term.Renaming
import Lemmata.Proofs.Term.Substitution
import Lemmata.Proofs.Term.Template
import Lemmata.Proofs.Theory.Assertion
import Lemmata.Proofs.Theory.Declarations
import Lemmata.Proofs.Theory.Files
import Lemmata.Proofs.Theory.Reachable
import Lemmata.Proofs.Theory.Signature
import Lemmata.Proofs.Theory.Statements
import Lemmata.Proofs.Worksheet.Additions
import Lemmata.Proofs.Worksheet.Growth
import Lemmata.Proofs.Worksheet.Reachable
import Lemmata.Proofs.Worksheet.Soundness
import Lemmata.Registry
import Lemmata.Report.Basic
import Lemmata.Report.CommandLine
import Lemmata.Spelling.Numbered
import Lemmata.Spelling.Printer
import Lemmata.Spelling.Reader
import Lemmata.Spelling.Token
import Lemmata.Term.Basic
import Lemmata.Term.Order
import Lemmata.Term.Replace
import Lemmata.Term.Substitution
import Lemmata.Term.Template
import Lemmata.Text.Blank
import Lemmata.Text.Serial
import Lemmata.Theory.Assertion
import Lemmata.Theory.Basic
import Lemmata.Theory.File
import Lemmata.Theory.Signature
import Lemmata.Worksheet.Basic
import Lemmata.Worksheet.Fault
