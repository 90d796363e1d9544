import Chording.Key.Event

/-!
# Downstream

Where forwarded events go.  Every receiver gets all of them in order, except that nothing arrives over a channel
whose other end is gone; losing events that way is no failure of the sender.
-/

namespace Chording

/-- A receiver of forwarded events. -/
inductive Downstream
  | buffer
  | callback
  | channel (connected : Bool)
deriving DecidableEq

/-- What arrives of the events sent. -/
def Downstream.received : Downstream → List KeyEvent → List KeyEvent
  | channel false, _ => []
  | _, sent => sent

end Chording
