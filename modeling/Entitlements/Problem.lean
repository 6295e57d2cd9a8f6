import Entitlements.Credential
import Entitlements.Settings

/-!
Everything that can go wrong, under one heading each: the settings, a resolution, a request.
-/

namespace Entitlements

/-- A failure of any part of the program. -/
inductive Problem where
  | settings (fault : SettingsFault)
  | resolution (fault : Fault)
  | refusal (refusal : Refusal)
deriving DecidableEq

def Problem.message : Problem → String
  | settings fault => "Configuration error: " ++ fault.message
  | resolution fault => "Scope resolution error: " ++ fault.message
  | refusal r => "Access denied: " ++ r.message

end Entitlements
