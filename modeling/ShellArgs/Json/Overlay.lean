import ShellArgs.Json.Basic

namespace ShellArgs.Json

mutual

-- The fields of `base` overlaid with those of a second object: objects that meet are
-- overlaid in turn, any other value of the second object replaces what it meets.
def overlay (base : Ordered Json) : Ordered Json → Ordered Json
  | []           => base
  | (n, v) :: fs => overlay (base.put n (overlayValue (base.get? n) v)) fs

def overlayValue (below : Option Json) : Json → Json
  | .obj fs =>
    match below with
    | some (.obj base) => .obj (overlay base fs)
    | _                => .obj fs
  | v => v

end

@[simp] theorem overlay_nil {base : Ordered Json} : overlay base [] = base := by
  simp [overlay]

end ShellArgs.Json
