import SchemaWeave.Command.Run
import SchemaWeave.Config.Load
import SchemaWeave.Graphql.Printer
import SchemaWeave.Http.Wire
import SchemaWeave.Introspection.Decode
import SchemaWeave.Introspection.Encode
import SchemaWeave.Introspection.Sdl
import SchemaWeave.Json.Printer
import SchemaWeave.Json.Reader
import SchemaWeave.Main
import SchemaWeave.Merge
import SchemaWeave.Proofs.Artifact
import SchemaWeave.Proofs.Introspection.Sdl
import SchemaWeave.Proofs.Merge
import SchemaWeave.Proofs.Requests
import SchemaWeave.Proofs.Stable
import SchemaWeave.Run.Pipeline
import SchemaWeave.Schema.Build
import SchemaWeave.Schema.Introspect
import SchemaWeave.Proofs.Merge.Premerged
import SchemaWeave.Proofs.Merge.Closed
import SchemaWeave.Proofs.Artifact.Inputs
import SchemaWeave.Proofs.Artifact.References
import SchemaWeave.Proofs.Introspection.Described
import SchemaWeave.Proofs.RemoteRoots
import SchemaWeave.Proofs.Json.Ordered
import SchemaWeave.Proofs.Json.Reads
import SchemaWeave.Proofs.Introspection.Reads
import SchemaWeave.Proofs.Introspection.Agree
import SchemaWeave.Proofs.Stored
import SchemaWeave.Proofs.Introspection.RoundTrip
import SchemaWeave.Proofs.Rerun
import SchemaWeave.Proofs.Command
import SchemaWeave.Proofs.Relocated
import SchemaWeave.Proofs.Introspection.Edited
import SchemaWeave.Proofs.Config.Discovery
import SchemaWeave.Proofs.Config.Layers
import SchemaWeave.Proofs.Config.Bare
import SchemaWeave.Proofs.Headers
import SchemaWeave.Proofs.Introspection.Literal
