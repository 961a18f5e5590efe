import Dashboard.Display
import Dashboard.Table

/-!
# The screen

The screen has one widget per device that has sent a reading. `widget?_store` says that a reading
changes the widget of its own device and no other.
-/

namespace Dashboard

structure Widget where
  kind : Kind
  quantity : Quantity
  display : Display
  deriving DecidableEq

inductive Redraw where
  | unchanged
  | changed (old : Option Display) (new : Display)
  deriving DecidableEq

def Redraw.isChanged : Redraw → Bool
  | unchanged => false
  | changed .. => true

structure Screen where
  widgets : Table String Widget := {}
  deriving DecidableEq

namespace Screen

def widget? (s : Screen) (device : String) : Option Widget :=
  s.widgets.get? device

def text? (s : Screen) (device : String) : Option String :=
  (s.widget? device).map (·.display.text)

def devices (s : Screen) : List String :=
  s.widgets.keys

/-- Stores what the widget of a reading's device displays from now on. Kind and quantity follow the
reading even where the display stays the same. -/
def store (s : Screen) (r : Reading) (display : Display) : Redraw × Screen :=
  let old := (s.widget? r.device).map Widget.display
  (if old = some display then .unchanged else .changed old display,
    { widgets := s.widgets.put r.device { kind := r.kind, quantity := r.quantity, display } })

theorem widget?_store (s : Screen) (r : Reading) (display : Display) (device : String) :
    (s.store r display).2.widget? device =
      if device = r.device then some { kind := r.kind, quantity := r.quantity, display }
      else s.widget? device :=
  Table.get?_put ..

end Screen

end Dashboard
