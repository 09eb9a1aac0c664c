import ShellArgs.Settings.Layers

namespace ShellArgs.Settings

inductive EditError where
  | badPath (key : String)
  | unknown (key : String)
  | noInteger (key value : String)
  | noNumber (key value : String)
  | badValue (fields : List String)
deriving DecidableEq, Repr

def EditError.message : EditError → String
  | badPath key         => "Invalid config key: " ++ key
  | unknown key         => "Unknown config key: " ++ key
  | noInteger key value => "Expected integer for " ++ key ++ ", got: " ++ value
  | noNumber key value  => "Expected number for " ++ key ++ ", got: " ++ value
  | badValue fields     => "Validation error: " ++ ", ".intercalate fields

-- Every word that does not mean true means false.
def coerce (key : String) (current : Json) (value : String) : Except EditError Json :=
  match current with
  | .bool _  => .ok (.bool (isTrueWord value))
  | .int _   =>
    match Decimal.readInt? value.toList with
    | some n => .ok (.int n)
    | none   => .error (.noInteger key value)
  | .float _ =>
    match Decimal.readFloat? value.toList with
    | some x => .ok (.float x)
    | none   => .error (.noNumber key value)
  | _        => .ok (.str value)

theorem coerce_bool_eq (key value : String) (b : Bool) :
    coerce key (.bool b) value = .ok (.bool (isTrueWord value)) :=
  rfl

theorem coerce_int_eq (key value : String) (n : Int) :
    coerce key (.int n) value =
      (Decimal.readInt? value.toList).elim (.error (.noInteger key value)) (.ok <| .int ·) := by
  rw [coerce]
  cases Decimal.readInt? value.toList <;> rfl

theorem coerce_float_eq (key value : String) (x : Binary64) :
    coerce key (.float x) value =
      (Decimal.readFloat? value.toList).elim (.error (.noNumber key value)) (.ok <| .float ·) := by
  rw [coerce]
  cases Decimal.readFloat? value.toList <;> rfl

theorem coerce_raw_eq (key value : String) (t : RawText) :
    coerce key (.raw t) value = .ok (.str value) := by
  cases t <;> rfl

def editAt (key : String) (f : Json → Except EditError Json) :
    List String → Ordered Json → Except EditError (Ordered Json × Json)
  | [],      _  => .error (.unknown key)
  | [n],     fs =>
    match fs.get? n with
    | none         => .error (.unknown key)
    | some (.obj _) => .error (.unknown key)
    | some v       => do
      let w ← f v
      return (fs.put n w, w)
  | n :: ns, fs =>
    match fs.get? n with
    | some (.obj inner) => do
      let (inner, w) ← editAt key f ns inner
      return (fs.put n (.obj inner), w)
    | _ => .error (.badPath key)

def pathOf (key : String) : List String :=
  (key.toList.splitOn '.').map String.ofList

def edit (s : Settings) (key value : String) : Except EditError (Settings × Json) := do
  let (fs, w) ← editAt key (coerce key · value) (pathOf key) (s.toJson.fields?.getD [])
  match (check (.obj fs)).toExcept with
  | .ok s     => return (s, w)
  | .error fs => throw (.badValue fs)

def shown : Json → RawText
  | .bool b     => if b then "True" else "False"
  | .float x    => x.toText
  | .str s      => s
  | .unpaired t => .unpaired t
  | v           => v.compact

def rows (s : Settings) : List (String × RawText) :=
  go "" (s.toJson.fields?.getD [])
where
  go (start : String) : List (String × Json) → List (String × RawText)
    | []                 => []
    | (n, .obj inner) :: fs => go (start ++ n ++ ".") inner ++ go start fs
    | (n, v) :: fs       => (start ++ n, shown v) :: go start fs

end ShellArgs.Settings
