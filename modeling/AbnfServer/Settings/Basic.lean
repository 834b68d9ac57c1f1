-- The settings of a server: the language of its messages, the size of its
-- cache, whether it formats, and how much it tells its client.
import AbnfServer.Cache.Scans
import AbnfServer.Message.Locale

namespace AbnfServer

/-! ## Log levels -/

/-- How much is told, from least to most. -/
inductive LogLevel
  | error | warn | info | debug | trace
deriving DecidableEq, Repr

namespace LogLevel

instance : Inhabited LogLevel := ⟨info⟩

def all : List LogLevel := [error, warn, info, debug, trace]

def name : LogLevel → String
  | error => "error"
  | warn => "warn"
  | info => "info"
  | debug => "debug"
  | trace => "trace"

def ofName? (s : String) : Option LogLevel := all.find? fun l => l.name = s

/-- The place of a level in the order from least to most. -/
def rank : LogLevel → Nat
  | error => 0
  | warn => 1
  | info => 2
  | debug => 3
  | trace => 4

/-- A threshold lets through what is no more than itself. -/
def allows (threshold level : LogLevel) : Bool := level.rank ≤ threshold.rank

end LogLevel

/-- The kinds of messages that a client knows. -/
inductive MessageType
  | error | warning | info | log
deriving DecidableEq, Repr

/-- The number of a kind of message. -/
def MessageType.number : MessageType → Nat
  | error => 1
  | warning => 2
  | info => 3
  | log => 4

/-- The kind of message that a client shows a level as. -/
def LogLevel.messageType : LogLevel → MessageType
  | error => .error
  | warn => .warning
  | info => .info
  | debug => .log
  | trace => .log

/-! ## Settings -/

/-- The smallest and the largest number that a setting may have. -/
structure Bounds where
  least : Nat
  most : Nat
deriving DecidableEq, Repr

/-- The nearest number within the bounds. -/
def Bounds.clamp (b : Bounds) (n : Nat) : Nat := max b.least (min n b.most)

/-- How many documents a cache may hold. -/
def capacityBounds : Bounds := ⟨1, 10000⟩

/-- How many seconds an entry may live: up to a day. -/
def lifetimeBounds : Bounds := ⟨1, 24 * 60 * 60⟩

/-- The size of the cache, as it is set. -/
structure CacheSettings where
  capacity : Nat := 100
  lifetimeSecs : Nat := 30 * 60
deriving DecidableEq, Repr

def CacheSettings.limits (c : CacheSettings) : CacheLimits := ⟨c.capacity, .ofSecs c.lifetimeSecs⟩

def CacheSettings.clamped (c : CacheSettings) : CacheSettings :=
  ⟨capacityBounds.clamp c.capacity, lifetimeBounds.clamp c.lifetimeSecs⟩

/-- The settings of a server. -/
structure Settings where
  locale : Locale := default
  cache : CacheSettings := {}
  formatting : Bool := true
  logLevel : LogLevel := default
deriving DecidableEq, Repr

end AbnfServer
