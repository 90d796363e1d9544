/-!
# Key codes

What a key means, as opposed to where its switch sits.
-/

namespace Chording

/-- A key code: the usage number of a key on the keyboard page. -/
structure KeyCode where
  usage : UInt16
deriving DecidableEq

end Chording
