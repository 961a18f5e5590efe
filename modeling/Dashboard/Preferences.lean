import Dashboard.Text.Blank

/-!
# Viewer preferences

What a viewer chose for the display, kept outside the session in a cookie.
-/

namespace Dashboard

structure Preferences where
  abbreviate : Bool := false
  deriving DecidableEq

/-- A cookie that is empty or `0` means off, blank characters around it apart. -/
def Preferences.ofCookie (value : String) : Preferences :=
  { abbreviate := !(Text.trim value = "" || Text.trim value = "0") }

end Dashboard
