import NameBinding.Diagnostic
import NameBinding.LambdaPi.Export
import NameBinding.LambdaPi.Import
import NameBinding.LambdaPi.Whnf
import NameBinding.NameMap
import NameBinding.Sexp.Access
import NameBinding.Term.AlphaEquiv
import NameBinding.Uniform
import NameBinding.Proofs.AlphaEquivalence
import NameBinding.Proofs.RoundTrip
import NameBinding.Proofs.Matching
import NameBinding.Proofs.HeadReduction
import NameBinding.Proofs.Destructuring
import NameBinding.Proofs.SafeReduction
import NameBinding.Proofs.ReductionUpToBinders
import NameBinding.Proofs.Agreement
import NameBinding.Proofs.Composition
import NameBinding.Proofs.Symmetry
import NameBinding.Proofs.Grammar
import NameBinding.Proofs.RawAccess
import NameBinding.Proofs.LexicalScope
import NameBinding.Proofs.Shadowing
import NameBinding.Proofs.Reflexivity
import NameBinding.Proofs.CanonicalTerms
import NameBinding.Proofs.MovedPatterns
import NameBinding.Proofs.FaithfulRendering
import NameBinding.Proofs.UnknownNames
import NameBinding.Proofs.ScopeAsSet
import NameBinding.Proofs.SubstitutionAsMap
import NameBinding.Proofs.MergeLaws
import NameBinding.Proofs.BinderScan
import NameBinding.Proofs.Termination
import NameBinding.Proofs.TokenLocation
