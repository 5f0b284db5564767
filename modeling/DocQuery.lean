import DocQuery.Main
import DocQuery.Proofs.Collection.Disjunction
import DocQuery.Proofs.Join.Runs
import DocQuery.Proofs.Predicate.RoundTrip
import DocQuery.Proofs.Schema.Inference
import DocQuery.Proofs.Schema.Sampling
import DocQuery.Proofs.Statement.Acceptance
import DocQuery.Proofs.Statement.Faithful
import DocQuery.Proofs.Store.Tables
import DocQuery.Proofs.Json.RoundTrip
import DocQuery.Proofs.Schema.Checking
import DocQuery.Proofs.Schema.Writing
import DocQuery.Proofs.Dialect.Pieces
import DocQuery.Proofs.Statement.Lines
import DocQuery.Proofs.Statement.Layout
import DocQuery.Proofs.Statement.Parameters
import DocQuery.Proofs.Join.Canonical
import DocQuery.Proofs.Statement.Canonical
import DocQuery.Proofs.Collection.FiniteMap
import DocQuery.Proofs.Statement.Labels
import DocQuery.Proofs.Store.Membership
import DocQuery.Proofs.Schema.Validity
import DocQuery.Proofs.Store.Guids
import DocQuery.Proofs.Collection.Nulls
import DocQuery.Proofs.Store.Pairing
import DocQuery.Proofs.Store.Instants
import DocQuery.Proofs.Path.Exact
import DocQuery.Proofs.Schema.Repetition
import DocQuery.Proofs.Join.Emission
import DocQuery.Proofs.Collection.Paging
import DocQuery.Proofs.Path.Respelling
import DocQuery.Proofs.Path.Grammar
import DocQuery.Proofs.Predicate.Translation
import DocQuery.Proofs.Predicate.Equation
import DocQuery.Proofs.Predicate.Parts
import DocQuery.Proofs.Predicate.Amounts
import DocQuery.Proofs.Query.Checked
import DocQuery.Proofs.Collection.Limits
import DocQuery.Proofs.Collection.Lookup
import DocQuery.Proofs.Store.Partition
import DocQuery.Proofs.Value.Literal
import DocQuery.Proofs.Statement.Equality
import DocQuery.Proofs.Dialect.Paths
import DocQuery.Proofs.CommandLine.Answer
