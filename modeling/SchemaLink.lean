import SchemaLink.Json.Printer
import SchemaLink.Document.OfJson
import SchemaLink.Document.ToJson
import SchemaLink.Schema.OfDocuments
import SchemaLink.Resolution
import SchemaLink.Main
import SchemaLink.Proofs.ImportOrder
import SchemaLink.Proofs.Walks
import SchemaLink.Proofs.Policies
import SchemaLink.Proofs.Containment
import SchemaLink.Proofs.FirstEnds
import SchemaLink.Proofs.Ascent
import SchemaLink.Proofs.RoundTrips
import SchemaLink.Proofs.Prefixes
import SchemaLink.Proofs.Placement
import SchemaLink.Proofs.Usages
import SchemaLink.Proofs.Batches
import SchemaLink.Proofs.TypeReports
import SchemaLink.Proofs.Repetition
import SchemaLink.Proofs.ReadBack
import SchemaLink.Proofs.WrittenDocuments
import SchemaLink.Proofs.ImportCycles
import SchemaLink.Proofs.ImportRanks
import SchemaLink.Proofs.IdentityRecords
import SchemaLink.Proofs.SharedNames
import SchemaLink.Proofs.Endings
import SchemaLink.Proofs.Closures
import SchemaLink.Proofs.MergeEffects
import SchemaLink.Proofs.FreshNames
import SchemaLink.Proofs.TypeNames
import SchemaLink.Proofs.MemberNames
import SchemaLink.Proofs.PathTexts
import SchemaLink.Proofs.Renderings
import SchemaLink.Proofs.Predicates
import SchemaLink.Proofs.Stages
import SchemaLink.Proofs.DeclaredPaths
import SchemaLink.Proofs.RegisterCalls
import SchemaLink.Proofs.Offences
import SchemaLink.Proofs.MergePasses
import SchemaLink.Proofs.Expansions
import SchemaLink.Proofs.LexicalScopes
