import SegmentRouting.RoutingTable
import SegmentRouting.Text

/-! How a broker is set up: options in text form, the settings of a table build read from
them, and what its process takes from the environment. Options of other names are ignored. -/

namespace SegmentRouting

abbrev Options := Dict String

namespace Options

/-- The value of an option without the blanks around it, as read by `read`. A
fault names the option and quotes its value as it was written. -/
def parse {α : Type} (o : Options) (key : String) (read : List Char → Except String α) :
    Except RoutingError (Option α) :=
  match o.get? key with
  | none => .ok none
  | some raw =>
    match read (trimChars raw.toList) with
    | .ok value => .ok (some value)
    | .error fault => .error (.invalidConfig key ("'" ++ raw ++ "': " ++ fault))

def natural (limit : Nat) (s : List Char) : Except String Nat :=
  (readNatural limit s).mapError NumeralFault.message

def integer (limit : Nat) (s : List Char) : Except String Int :=
  (readInteger limit s).mapError NumeralFault.message

def truth (s : List Char) : Except String Bool :=
  match String.ofList s with
  | "true" => .ok true
  | "false" => .ok false
  | _ => .error "provided string was not `true` or `false`"

def text (s : List Char) : Except String String := .ok (String.ofList s)

end Options

structure Settings where
  tableCount : Nat
  seed : Option UInt64
deriving DecidableEq, Repr

namespace Settings

def countKey : String := "routing.table.count"

def seedKey : String := "routing.random.seed"

def maxCount : Nat := 1024

def default : Settings := ⟨10, none⟩

def checkCount (count : Nat) : Except RoutingError Nat :=
  if count = 0 then .error (.invalidConfig countKey "must be at least 1")
  else if maxCount < count then
    .error (.invalidConfig countKey ("must be at most " ++ toString maxCount))
  else .ok count

def ofOptions (o : Options) : Except RoutingError Settings := do
  let count ← o.parse countKey (Options.natural UInt64.size)
  let tableCount ← checkCount (count.getD default.tableCount)
  let seed ← o.parse seedKey (Options.natural UInt64.size)
  return ⟨tableCount, seed.map UInt64.ofNat⟩

/-- The settings in force after new options were given: faulty options change nothing. -/
def reconfigure (current : Settings) (o : Options) : Except RoutingError Unit × Settings :=
  match ofOptions o with
  | .ok settings => (.ok (), settings)
  | .error e => (.error e, current)

end Settings

structure Deployment where
  host : String
  portNumber : String
  options : Options
deriving DecidableEq

namespace Deployment

/-- The options whose variables are set. -/
def optionsOf (environment : Dict String) : Options :=
  Dict.ofList ([("ROUTING_TABLE_COUNT", Settings.countKey),
    ("ROUTING_RANDOM_SEED", Settings.seedKey)].filterMap
      (fun v => (environment.get? v.1).map (fun value => (v.2, value))))

def ofEnvironment (environment : Dict String) : Deployment :=
  ⟨(environment.get? "BROKER_HOST").getD "0.0.0.0",
    (environment.get? "BROKER_PORT").getD "3000", optionsOf environment⟩

def address (d : Deployment) : String := d.host ++ ":" ++ d.portNumber

end Deployment

end SegmentRouting
