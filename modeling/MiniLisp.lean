import MiniLisp.Main
import MiniLisp.Session
import MiniLisp.Proofs.RoundTrip
import MiniLisp.Proofs.Adequacy
import MiniLisp.Proofs.Expansion
import MiniLisp.Proofs.Quasiquote
import MiniLisp.Proofs.LoadFile
import MiniLisp.Proofs.Scope
import MiniLisp.Proofs.Separation
import MiniLisp.Proofs.Acceptance
import MiniLisp.Proofs.Swap
import MiniLisp.Proofs.Checked
import MiniLisp.Proofs.Ownership
import MiniLisp.Proofs.Unbalanced
import MiniLisp.Proofs.Delimited
import MiniLisp.Proofs.Launch
import MiniLisp.Proofs.Equality
import MiniLisp.Proofs.Comparison
import MiniLisp.Proofs.Tables
import MiniLisp.Proofs.Clauses
import MiniLisp.Proofs.Abort
import MiniLisp.Proofs.Signatures
import MiniLisp.Proofs.Lookup
import MiniLisp.Proofs.Markers
import MiniLisp.Proofs.Exponents
import MiniLisp.Proofs.FloatText
import MiniLisp.Proofs.Integers
import MiniLisp.Proofs.Sequences
import MiniLisp.Proofs.Classification
import MiniLisp.Proofs.EntryOrder
import MiniLisp.Proofs.Circles
import MiniLisp.Proofs.Inert
