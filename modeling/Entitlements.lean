import Entitlements.Files
import Entitlements.Json.Writer
import Entitlements.Main
import Entitlements.Problem
import Entitlements.Settings.Document
import Entitlements.Proofs.Inheritance
import Entitlements.Proofs.Verdict
import Entitlements.Proofs.Resolution
import Entitlements.Proofs.Provenance
import Entitlements.Proofs.Denial
import Entitlements.Proofs.Acyclic
import Entitlements.Proofs.Agreement
import Entitlements.Proofs.Priority
import Entitlements.Proofs.Separation
import Entitlements.Proofs.Strata
import Entitlements.Proofs.Expiry
import Entitlements.Proofs.Holder
import Entitlements.Proofs.Redundancy
import Entitlements.Proofs.Grant
import Entitlements.Proofs.Precedence
import Entitlements.Proofs.Canonical
import Entitlements.Proofs.Countdown
import Entitlements.Proofs.Search
import Entitlements.Proofs.Ascent
import Entitlements.Proofs.Minimal
import Entitlements.Proofs.Descent
