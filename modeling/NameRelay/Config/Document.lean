-- SUMMARY: Configurations as TOML documents.
import NameRelay.Config.Basic
import NameRelay.Relay.Error
import NameRelay.Toml.Document

/-!
# Configuration documents

Every setting has a key of its own; a key that is no setting is ignored. Interfaces and routes are
lists of tables. A table of settings may also be given as an array of its values in order; what is
missing at its end, or missing in a table, has its usual value, but a route is given completely.
-/

namespace NameRelay

namespace Toml.Value

/-- The settings of a table, by place or by key. A moment counts as a table without settings. -/
def settings? : Value → Option (Nat → String → Option Value)
  | table _ entries => some fun _ key => entries.lookup key
  | array items => some fun i _ => items[i]?
  | moment => some fun _ _ => none
  | _ => none

def string? : Value → Option String
  | string text => some text
  | _ => none

def boolean? : Value → Option Bool
  | boolean b => some b
  | _ => none

def integer? : Value → Option Int
  | integer n => some n
  | _ => none

/-- An integer that is not negative. -/
def natural? (v : Value) : Option Nat :=
  match v.integer? with
  | some (.ofNat n) => some n
  | _ => none

/-- An integer that fits a word of 32 bits. -/
def word32? (v : Value) : Option Nat := v.natural?.filter (· < 0x100000000)

/-- A list of tables: an array, or tables with headers. -/
def list? {α : Type} (read : Value → Option α) : Value → Option (List α)
  | array items => items.mapM read
  | tables elements => elements.mapM fun entries => read (table .header entries)
  | _ => none

end Toml.Value

open Toml (Value)

/-- Reads a setting, which has a usual value. -/
def settingOr {α : Type} (usual : α) (read : Value → Option α) : Option Value → Option α
  | none => some usual
  | some v => read v

-- ---------------------------------------------------------------------------
-- Reading
-- ---------------------------------------------------------------------------

def InterfaceConfig.ofValue? (v : Value) : Option InterfaceConfig := do
  let setting ← v.settings?
  let usual : InterfaceConfig := {}
  return {
    address := ← settingOr usual.address Value.string? (setting 0 "address")
    mtu := ← settingOr usual.mtu Value.natural? (setting 1 "mtu")
    reflect := ← settingOr usual.reflect Value.boolean? (setting 2 "reflect")
    forwardAllInterests :=
      ← settingOr usual.forwardAllInterests Value.boolean? (setting 3 "forward_all_interests")
    pacing := ← settingOr usual.pacing (·.natural?.map some) (setting 4 "pacing_us") }

def RouteConfig.ofValue? (v : Value) : Option RouteConfig := do
  let setting ← v.settings?
  return {
    name := ← (← setting 0 "prefix").string?
    suite := ← (← setting 1 "suite").string?
    interface := ← (← setting 2 "interface").natural?
    nextHop := ← (← setting 3 "next_hop").string? }

def Config.ofEntries? (entries : Toml.Entries) : Option Config := do
  let usual : Config := {}
  let natural (key : String) (n : Nat) : Option Nat :=
    settingOr n Value.natural? (entries.lookup key)
  return {
    maxCacheEntries :=
      ← settingOr usual.maxCacheEntries Value.integer? (entries.lookup "max_cache_entries")
    maxNonces := ← natural "max_nonces" usual.maxNonces
    ageingIntervalMillis := ← natural "ageing_interval_ms" usual.ageingIntervalMillis
    contentTimeoutSecs := ← natural "content_timeout_s" usual.contentTimeoutSecs
    interestTimeoutSecs := ← natural "interest_timeout_s" usual.interestTimeoutSecs
    faceTimeoutSecs := ← natural "face_timeout_s" usual.faceTimeoutSecs
    maxRetransmissions := ← settingOr usual.maxRetransmissions Value.word32?
      (entries.lookup "max_interest_retransmit")
    interfaces := ← settingOr usual.interfaces (Value.list? InterfaceConfig.ofValue?)
      (entries.lookup "interfaces")
    routes := ← settingOr usual.routes (Value.list? RouteConfig.ofValue?)
      (entries.lookup "routes") }

/-- Reads a configuration. -/
def Config.ofText (text : String) : Except ConfigError Config :=
  match Toml.read? text >>= Config.ofEntries? with
  | some c => .ok c
  | none => .error .unreadable

-- ---------------------------------------------------------------------------
-- Writing
-- ---------------------------------------------------------------------------

def InterfaceConfig.entries (c : InterfaceConfig) : Toml.Entries :=
  [("address", .string c.address), ("mtu", .integer c.mtu), ("reflect", .boolean c.reflect),
    ("forward_all_interests", .boolean c.forwardAllInterests)] ++
    c.pacing.toList.map fun us => ("pacing_us", .integer us)

def RouteConfig.entries (c : RouteConfig) : Toml.Entries :=
  [("prefix", .string c.name), ("suite", .string c.suite), ("interface", .integer c.interface),
    ("next_hop", .string c.nextHop)]

/-- Tables with headers; if there are none, an array that says so. -/
def tablesOrEmpty (elements : List Toml.Entries) : Value :=
  if elements = [] then .array [] else .tables elements

def Config.entries (c : Config) : Toml.Entries :=
  [("max_cache_entries", .integer c.maxCacheEntries),
    ("max_nonces", .integer c.maxNonces),
    ("ageing_interval_ms", .integer c.ageingIntervalMillis),
    ("content_timeout_s", .integer c.contentTimeoutSecs),
    ("interest_timeout_s", .integer c.interestTimeoutSecs),
    ("face_timeout_s", .integer c.faceTimeoutSecs),
    ("max_interest_retransmit", .integer c.maxRetransmissions),
    ("interfaces", tablesOrEmpty (c.interfaces.map (·.entries))),
    ("routes", tablesOrEmpty (c.routes.map (·.entries)))]

/-- Writes a configuration. Numbers of more than 63 bits cannot be written. -/
def Config.toText (c : Config) : Except ConfigError String :=
  match Toml.write? c.entries with
  | some text => .ok text
  | none => .error .unreadable

end NameRelay
