import Entitlements.Binary64

/-!
The values of TOML documents. A date, a time of day or both together is kept as its text.
-/

namespace Entitlements

/-- A TOML value. The keys of a table are distinct. -/
inductive Toml where
  | text (s : String)
  | integer (n : Int)
  | real (x : Binary64)
  | bool (b : Bool)
  | moment (s : String)
  | list (items : List Toml)
  | table (entries : List (String × Toml))

end Entitlements
