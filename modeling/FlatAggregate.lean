import FlatAggregate.Aggregate.Reading
import FlatAggregate.Json.Printer
import FlatAggregate.Proofs.Aggregate.Documents
import FlatAggregate.Proofs.Aggregate.PropertyLists
import FlatAggregate.Proofs.Aggregate.Sites
import FlatAggregate.Proofs.Alias.Delegation
import FlatAggregate.Proofs.Alias.Legibility
import FlatAggregate.Proofs.Builder.Indexing
import FlatAggregate.Proofs.Generator.CacheModel
import FlatAggregate.Proofs.Generator.ForeignNames
import FlatAggregate.Proofs.Generator.Multiplicity
import FlatAggregate.Proofs.Generator.Shape
import FlatAggregate.Proofs.Generator.StoredNames
import FlatAggregate.Proofs.Lowering.Mirrors
import FlatAggregate.Proofs.Lowering.Windows
import FlatAggregate.Proofs.Plan.Handles
import FlatAggregate.Proofs.Plan.Identity
import FlatAggregate.Proofs.Plan.Unguarded
import FlatAggregate.Proofs.Rows.Pairing
import FlatAggregate.Proofs.Rows.Provenance
import FlatAggregate.Proofs.Rows.Reach
import FlatAggregate.Proofs.Statement.Documents
import FlatAggregate.Proofs.Statement.Legibility
import FlatAggregate.Settings.Document
import FlatAggregate.Settings.Environment
import FlatAggregate.Statement.Document
import FlatAggregate.Statement.Listing
