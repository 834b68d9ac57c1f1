-- Settings that a client sends, as JSON. The payload counts as it stands, and
-- then once more what it has under the name of the server. Each of the two
-- either counts as a whole, or, when one field in it is ill-typed, not at all.
import AbnfServer.Json.Basic
import AbnfServer.Settings.Basic

namespace AbnfServer

/-! ## Patches -/

/-- Changes to some of the settings. -/
structure Patch where
  locale : Option Locale := none
  capacity : Option Nat := none
  lifetimeSecs : Option Nat := none
  formatting : Option Bool := none
  logLevel : Option LogLevel := none
deriving DecidableEq, Repr

namespace Patch

/-- Reads a member that may be missing. A null is as good as none; a value that
cannot be read spoils the whole. -/
def member? {α : Type} (j : Json) (key : String) (read? : Json → Option α) : Option (Option α) :=
  match j.get? key with
  | none => some none
  | some .null => some none
  | some v => (read? v).map some

/-- Reads a level: its name, or an object whose one key is the name. -/
def level? : Json → Option LogLevel
  | .str s => LogLevel.ofName? s
  | .obj [(key, .null)] => LogLevel.ofName? key
  | _ => none

/-- Reads one field of an object. -/
def fieldOf? {α : Type} (key : String) (read? : Json → Option α) (j : Json) : Option (Option α) :=
  if j.isObject then member? j key read? else none

/-- Reads the two numbers of the cache. -/
def cache? (j : Json) : Option (Option Nat × Option Nat) := do
  return (← fieldOf? "capacity" Json.asNat64? j, ← fieldOf? "ttlSecs" Json.asNat64? j)

/-- Reads a patch. A tag of no language stands for the default language. -/
def ofJson? (j : Json) : Option Patch := do
  if !j.isObject then none
  let tag ← member? j "locale" Json.asString?
  let cache ← member? j "cache" cache?
  let formatting ← member? j "formatting" (fieldOf? "enable" Json.asBool?)
  let logging ← member? j "logging" (fieldOf? "level" level?)
  return {
    locale := tag.map Locale.ofTag
    capacity := cache.bind Prod.fst
    lifetimeSecs := cache.bind Prod.snd
    formatting := formatting.join
    logLevel := logging.join }

end Patch

/-! ## Merging -/

/-- The member of a payload that holds the settings of this server. -/
def settingsSection : String := "abnf-analyzer"

namespace Settings

/-- Changes the fields that the patch has. -/
def patched (s : Settings) (p : Patch) : Settings where
  locale := p.locale.getD s.locale
  cache := ⟨p.capacity.getD s.cache.capacity, p.lifetimeSecs.getD s.cache.lifetimeSecs⟩
  formatting := p.formatting.getD s.formatting
  logLevel := p.logLevel.getD s.logLevel

/-- The parts of a payload that may hold settings, in the order in which they
count. -/
def candidates (payload : Json) : List Json := payload :: (payload.get? settingsSection).toList

/-- Merges a payload into the settings. The numbers are clamped at the end. -/
def merge (s : Settings) (payload : Json) : Settings :=
  let merged := ((candidates payload).filterMap Patch.ofJson?).foldl patched s
  { merged with cache := merged.cache.clamped }

/-- Without a payload nothing changes, not even a number out of bounds. -/
def mergeOptional (s : Settings) : Option Json → Settings
  | none => s
  | some payload => s.merge payload

end Settings

end AbnfServer
