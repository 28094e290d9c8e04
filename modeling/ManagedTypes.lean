import ManagedTypes.Proofs.FormatGrammar
import ManagedTypes.Proofs.WalkChecks
import ManagedTypes.Proofs.GeneralText
import ManagedTypes.Proofs.FailedOperations
import ManagedTypes.Proofs.StorageSeparation
import ManagedTypes.Proofs.StoreEffect
import ManagedTypes.Proofs.SlotHistory
import ManagedTypes.Proofs.FormatterRouting
import ManagedTypes.Proofs.CanonicalText
import ManagedTypes.Proofs.CellUpdate
import ManagedTypes.Proofs.WalkReference
import ManagedTypes.Reflect.Registry
import ManagedTypes.Proofs.RegistryHistory
import ManagedTypes.Proofs.VolatileBounds
import ManagedTypes.Proofs.IntegerConversion
import ManagedTypes.Proofs.OptionsRoundTrip
import ManagedTypes.Proofs.IntegerBounds
import ManagedTypes.Proofs.ScientificText
import ManagedTypes.Proofs.WalkSearch
import ManagedTypes.Proofs.RegistryWalk
import ManagedTypes.Proofs.IntegerText
import ManagedTypes.Proofs.RegistryMembers
import ManagedTypes.Proofs.PaddedText
import ManagedTypes.Proofs.SymbolSubstitution
import ManagedTypes.Proofs.EqualityHash
import ManagedTypes.Proofs.BitViews
import ManagedTypes.Proofs.NativeAccess
import ManagedTypes.Proofs.FloatConversion
import ManagedTypes.Proofs.TypeConversion
import ManagedTypes.Proofs.DigitGrouping
import ManagedTypes.Proofs.DecimalBounds
import ManagedTypes.Proofs.CheckedDecimal
import ManagedTypes.Proofs.CheckedText
import ManagedTypes.Proofs.DocumentStatements
import ManagedTypes.Proofs.OptionsOverlay
