-- The reference of the settings: what can be set, for the manifest of an
-- editor extension and as a page of Markdown.
import AbnfServer.Json.Printer
import AbnfServer.Settings.Payload

namespace AbnfServer

/-- The values that a setting takes. -/
inductive SettingType
  | bool
  | integer (minimum maximum : Option Int)
  | oneOf (values : List String)

/-- One setting as the reference describes it. -/
structure SettingField where
  key : String
  description : String
  type : SettingType
  default : Json

namespace SettingField

/-- The key with the name of the server in front. -/
def fullKey (f : SettingField) : String := settingsSection ++ "." ++ f.key

/-- What a manifest says about a type. -/
def typeMembers : SettingType → List (String × Option Json)
  | .bool => [("type", some (.str "boolean"))]
  | .integer minimum maximum =>
    [("type", some (.str "number")), ("minimum", minimum.map .ofInt),
      ("maximum", maximum.map .ofInt)]
  | .oneOf values => [("type", some (.str "string")), ("enum", some (.arr (values.map .str)))]

/-- The description for a manifest. -/
def schema (f : SettingField) : Json :=
  .ofOptional (("markdownDescription", some (.str f.description)) :: ("default", some f.default) ::
    typeMembers f.type)

/-- The description as an item of a Markdown list. -/
def markdown (f : SettingField) : String :=
  "- `" ++ f.fullKey ++ "` (default `" ++ f.default.render ++ "`) - " ++ f.description

end SettingField

namespace Settings

/-- A setting that is a whole number within bounds. -/
def boundedType (b : Bounds) : SettingType := .integer (some b.least) (some b.most)

/-- The fields of one part of the settings, under the title of that part. -/
structure Chapter where
  title : String
  fields : List SettingField

/-- All settings, with their defaults. -/
def chapters : List Chapter :=
  let s : Settings := {}
  [⟨"Locale",
    [⟨"locale",
      "Language of hover text and rename errors. Unknown values fall back to `zh-CN`.",
      .oneOf (Locale.all.map Locale.tag), .str s.locale.tag⟩]⟩,
   ⟨"Cache",
    [⟨"cache.capacity",
      "Documents kept in each scan cache before the least recently used one is evicted.",
      boundedType capacityBounds, .ofNat s.cache.capacity⟩,
     ⟨"cache.ttlSecs",
      "Seconds a cached scan stays valid after it was written.",
      boundedType lifetimeBounds, .ofNat s.cache.lifetimeSecs⟩]⟩,
   ⟨"Formatting",
    [⟨"formatting.enable",
      "Enable document formatting of rule definition lines.",
      .bool, .bool s.formatting⟩]⟩,
   ⟨"Logging",
    [⟨"logging.level",
      "Verbosity of log messages sent to the client.",
      .oneOf (LogLevel.all.map LogLevel.name), .str s.logLevel.name⟩]⟩]

def fields : List SettingField := chapters.flatMap Chapter.fields

/-- The properties for the manifest of an editor extension. -/
def manifest : Json := .ofMembers (fields.map fun f => (f.fullKey, f.schema))

def Chapter.markdown (c : Chapter) : String :=
  "\n## " ++ c.title ++ "\n\n" ++ String.join (c.fields.map fun f => f.markdown ++ "\n")

/-- The page of Markdown. -/
def markdownPage : String :=
  "# " ++ settingsSection ++ " settings\n" ++ String.join (chapters.map Chapter.markdown)

end Settings

end AbnfServer
