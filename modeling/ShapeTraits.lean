import ShapeTraits.Main
import ShapeTraits.KeyedTable
import ShapeTraits.Proofs.Concatenation
import ShapeTraits.Proofs.NestingLimit
import ShapeTraits.Proofs.Output
import ShapeTraits.Proofs.ValueAsBody
import ShapeTraits.Proofs.Overflow
import ShapeTraits.Proofs.Delimiting
import ShapeTraits.Proofs.Utf8
import ShapeTraits.Proofs.Utf8Values
import ShapeTraits.Proofs.LineEndings
import ShapeTraits.Proofs.Foresight
import ShapeTraits.Proofs.DocumentationLedger
import ShapeTraits.Proofs.Respacing
import ShapeTraits.Proofs.LeadingTraits
import ShapeTraits.Proofs.OpenNames
import ShapeTraits.Proofs.NamesInPlace
import ShapeTraits.Proofs.FirstFault
import ShapeTraits.Proofs.Frame
import ShapeTraits.Proofs.FilterSpecs
import ShapeTraits.Proofs.Listening
import ShapeTraits.Proofs.QuietRuns
import ShapeTraits.Proofs.EscapeLanguage
import ShapeTraits.Proofs.BlockLayout
import ShapeTraits.Proofs.NumberLiterals
import ShapeTraits.Proofs.LineIndex
import ShapeTraits.Proofs.TokensAlone
import ShapeTraits.Proofs.IntegerEquality
import ShapeTraits.Proofs.InsertionOrder
import ShapeTraits.Proofs.JsonGrammar
import ShapeTraits.Proofs.Layouts
import ShapeTraits.Proofs.WrittenPlaces
import ShapeTraits.Proofs.SpecifiedFilters
import ShapeTraits.Proofs.Arguments
import ShapeTraits.Proofs.OneLineMessages
import ShapeTraits.Proofs.Carets
