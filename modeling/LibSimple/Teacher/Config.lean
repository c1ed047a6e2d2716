import LibSimple.Support.IntText
import LibSimple.Url.Model

/-!
# The configuration of the teacher tracking

`KVConfig`, which is not part of the sources, by what its users rely on, and the lists
of points that are kept in it.
-/

namespace LibSimple.Teacher

open CLang Url

/-- `KVConfig`: `get_value` gives what `set_value` has stored under the key, `none` when
nothing is, and neither another key nor `save_as` changes that. -/
structure KVConfig (Config : Type) where
  getValue : Config → CStr → Option CStr
  setValue : Config → CStr → CStr → Config
  saveAs : Config → Config
  getValue_setValue (cfg : Config) (key value : CStr) :
    getValue (setValue cfg key value) key = some value
  getValue_setValue_ne (cfg : Config) {key other : CStr} (value : CStr) (hne : other ≠ key) :
    getValue (setValue cfg key value) other = getValue cfg other
  getValue_saveAs (cfg : Config) (key : CStr) : getValue (saveAs cfg) key = getValue cfg key

/-- The values themselves are a configuration. -/
def plainConfig : KVConfig (CStr → Option CStr) where
  getValue := fun cfg key => cfg key
  setValue := fun cfg key value => Function.update cfg key (some value)
  saveAs := id
  getValue_setValue := fun _ _ _ => Function.update_self _ _ _
  getValue_setValue_ne := fun _ _ _ _ hne => Function.update_of_ne hne _ _
  getValue_saveAs := fun _ _ => rfl

/-! ## Points -/

/-- `CvPoint` -/
structure CvPoint where
  x : CInt
  y : CInt
  deriving DecidableEq

/-- The loop of `strtok` and `sscanf` over `"x,y;x,y;"`: the points that it finds. -/
def scanPoints (pts : Option CStr) : List CvPoint :=
  match pts with
  | none => []
  | some data =>
      (strtok data (charByte ';')).filterMap fun p =>
        (scanIntPair p).map fun (x, y) => ⟨x, y⟩

def calibrationData : CStr := .ofString "calibration_data"

def calibrationData2 : CStr := .ofString "calibration_data2"

def calibrationData3 : CStr := .ofString "calibration_data3"

end LibSimple.Teacher
