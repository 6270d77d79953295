import Sparsam.BinaryProtocol
import Sparsam.Loading
import Sparsam.SerializerRead
import Sparsam.DecoderCalls
import Sparsam.DecoderTyping
import Sparsam.GenericSkip
import Sparsam.DecoderFraming
import Sparsam.SerializerConformance
import Sparsam.ObjectAgreement
import Sparsam.SerializerWire
import Sparsam.SerializerRoundTrip
import Sparsam.ThriftScope
import Sparsam.IncludeProcessing
import Sparsam.IncludeTermination
import Sparsam.IncludeCoverage
import Sparsam.ScopeCacheRefinement
import Sparsam.FieldLists
import Sparsam.TypedefExpansion
import Sparsam.ProgramTree
import Sparsam.ConstantPaths
import Sparsam.ClassReferences
import Sparsam.LoadOrder
import Sparsam.ConstantAccess
import Sparsam.FittingLiterals
import Sparsam.Audit
import Sparsam.AuditReflexivity
import Sparsam.UnionObject
import Sparsam.SchemaEvaluation
import Sparsam.FieldIdentifiers
import Sparsam.UnionRequiredness
import Sparsam.AuditMerge
import Sparsam.ComparedConstants
import Sparsam.ComparedTypes
import Sparsam.EnumModules
import Sparsam.RubyStrings
import Sparsam.RequirePaths
import Sparsam.RubyReader
import Sparsam.NumberFormat
import Sparsam.GeneratedText
import Sparsam.StringConstants
import Sparsam.Annotations
import Sparsam.ConstantOrder
import Sparsam.ObjectHashes
import Sparsam.EqualRange
import Sparsam.MemberVectors
import Sparsam.DecodedCopies
import Sparsam.ConstantReferences
import Sparsam.InputStreams
import Sparsam.DocComments
import Sparsam.MaximalMunch
import Sparsam.ThriftLexer
import Sparsam.CheckedStrings
import Sparsam.DocText
import Sparsam.StopSequences
import Sparsam.IncludesPass
import Sparsam.FieldsText
import Sparsam.StructObject
import Sparsam.DecodedValue
import Sparsam.SchemaEvolution
import Sparsam.AuditContract
import Sparsam.RubyEvaluation
import Sparsam.FieldTables
import Sparsam.WireCompatibility
import Sparsam.IdlMessages
import Sparsam.ThriftGrammar
import Sparsam.SourceText
import Sparsam.GeneratedFiles
import Sparsam.PrintablePrograms
import Sparsam.RecursiveGeneration
