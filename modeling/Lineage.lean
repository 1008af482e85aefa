import Lineage.Classpath.Loader
import Lineage.Job.Batch
import Lineage.Metadata.Decode
import Lineage.Proofs.Assembly.Code
import Lineage.Proofs.Assembly.Constants
import Lineage.Proofs.Assembly.Interning
import Lineage.Proofs.Assembly.Layout
import Lineage.Proofs.Assembly.Requests
import Lineage.Proofs.Assembly.RoundTrip
import Lineage.Proofs.Assembly.Sites
import Lineage.Proofs.ClassFile.AttributeLengths
import Lineage.Proofs.ClassFile.Bouncers
import Lineage.Proofs.ClassFile.Constants
import Lineage.Proofs.ClassFile.Decoding
import Lineage.Proofs.ClassFile.Ending
import Lineage.Proofs.ClassFile.File
import Lineage.Proofs.ClassFile.FileLayout
import Lineage.Proofs.ClassFile.FileSummary
import Lineage.Proofs.ClassFile.Getters
import Lineage.Proofs.ClassFile.Growth
import Lineage.Proofs.ClassFile.Lambdas
import Lineage.Proofs.ClassFile.RawAttributes
import Lineage.Proofs.ClassFile.Summary
import Lineage.Proofs.Classpath.Ascent
import Lineage.Proofs.Classpath.Choice
import Lineage.Proofs.Classpath.Exploded
import Lineage.Proofs.Classpath.Laziness
import Lineage.Proofs.Classpath.Requests
import Lineage.Proofs.Classpath.Shadowing
import Lineage.Proofs.Descriptor.Grammar
import Lineage.Proofs.Descriptor.Renaming
import Lineage.Proofs.Descriptor.RoundTrip
import Lineage.Proofs.Files.Growth
import Lineage.Proofs.Files.Texts
import Lineage.Proofs.Graph.Distance
import Lineage.Proofs.Graph.Evaluation
import Lineage.Proofs.Graph.Seeking
import Lineage.Proofs.Graph.Traversal
import Lineage.Proofs.Hierarchy.Frame
import Lineage.Proofs.Job.Batches
import Lineage.Proofs.Job.Reach
import Lineage.Proofs.Job.Repetition
import Lineage.Proofs.Json.RoundTrip
import Lineage.Proofs.Json.Scanning
import Lineage.Proofs.Metadata.Lookups
import Lineage.Proofs.Metadata.RoundTrip
import Lineage.Proofs.Metadata.Shape
import Lineage.Proofs.Naming.Reversal
import Lineage.Proofs.Resolution.Accessors
import Lineage.Proofs.Resolution.Agreement
import Lineage.Proofs.Resolution.Binding
import Lineage.Proofs.Resolution.Bridges
import Lineage.Proofs.Resolution.Declarations
import Lineage.Proofs.Resolution.EnumNames
import Lineage.Proofs.Resolution.Families
import Lineage.Proofs.Resolution.ForcedNames
import Lineage.Proofs.Resolution.Forwarding
import Lineage.Proofs.Resolution.Frame
import Lineage.Proofs.Resolution.Hiding
import Lineage.Proofs.Resolution.Landing
import Lineage.Proofs.Resolution.Nearest
import Lineage.Proofs.Resolution.Orders
import Lineage.Proofs.Resolution.ParentSearch
import Lineage.Proofs.Resolution.Parents
import Lineage.Proofs.Resolution.ParentsFirst
import Lineage.Proofs.Resolution.References
import Lineage.Proofs.Resolution.Repetition
import Lineage.Proofs.Resolution.Roots
import Lineage.Proofs.Resolution.Runs
import Lineage.Proofs.Resolution.Settling
import Lineage.Proofs.Resolution.Sources
import Lineage.Proofs.Resolution.Targets
import Lineage.Proofs.Resolution.Unification
import Lineage.Proofs.Resolution.Unity
import Lineage.Proofs.Resolution.Walks
import Lineage.Proofs.Tables
