-- A bounded cache whose entries grow old. When it is full, the entry that
-- was touched longest ago makes room. An entry older than the lifetime is
-- dropped when someone looks at it; nothing sweeps in between.
import AbnfServer.Dict

namespace AbnfServer

/-- A stretch of time, or a time on the clock, in nanoseconds. -/
abbrev Nanos := Nat

def Nanos.ofMillis (n : Nat) : Nanos := n * 1000000

def Nanos.ofSecs (n : Nat) : Nanos := n * 1000000000

def Nanos.millis (t : Nanos) : Nat := t / 1000000

/-- A value in a cache, with the time it was written and the count at which it
was last touched. -/
structure Slot (ν : Type) where
  value : ν
  writtenAt : Nanos
  touched : Nat
deriving DecidableEq

/-- A cache of at most `capacity` entries, each of which lives for `lifetime`
after it was written. `touches` counts the touches so far. -/
structure AgingCache (κ ν : Type) where
  capacity : Nat
  lifetime : Nanos
  slots : Dict κ (Slot ν) := ∅
  touches : Nat := 0

namespace AgingCache

variable {κ ν : Type}

/-- An empty cache. It has room for one entry at least. -/
def new (capacity : Nat) (lifetime : Nanos) : AgingCache κ ν where
  capacity := max capacity 1
  lifetime := lifetime

/-- The number of entries, those included that are too old but still there. -/
def size (c : AgingCache κ ν) : Nat := c.slots.size

/-- Whether an entry is too old at a time. At the end of its lifetime it is
not yet. -/
def isExpired (c : AgingCache κ ν) (now : Nanos) (s : Slot ν) : Bool :=
  c.lifetime < now - s.writtenAt

/-- The entries that are not too old, untouched. -/
def live (c : AgingCache κ ν) (now : Nanos) : List (κ × ν) :=
  (c.slots.entries.filter fun e => !c.isExpired now e.2).map fun e => (e.1, e.2.value)

/-- Drops all entries that are too old. -/
def purge (c : AgingCache κ ν) (now : Nanos) : AgingCache κ ν :=
  { c with slots := c.slots.filter fun _ s => !c.isExpired now s }

def clear (c : AgingCache κ ν) : AgingCache κ ν := { c with slots := ∅ }

/-- Of some entries, the key of the one touched longest ago. -/
def leastTouched? : List (κ × Slot ν) → Option (κ × Slot ν)
  | [] => none
  | e :: es =>
    match leastTouched? es with
    | none => some e
    | some f => if e.2.touched ≤ f.2.touched then some e else some f

variable [DecidableEq κ]

/-- The value under a key, whatever its age, and untouched. -/
def stored? (c : AgingCache κ ν) (k : κ) : Option ν := (c.slots.get? k).map Slot.value

/-- Takes an entry out, whatever its age. -/
def remove (c : AgingCache κ ν) (k : κ) : AgingCache κ ν := { c with slots := c.slots.erase k }

/-- Looks an entry up, and changes its value by `f` while its age goes on. The
result is the value before. An entry that is too old is dropped; any other one
is touched. A look at a key that is not there counts as a touch of nothing. -/
def modify (c : AgingCache κ ν) (now : Nanos) (k : κ) (f : ν → ν) : Option ν × AgingCache κ ν :=
  match c.slots.get? k with
  | none => (none, { c with touches := c.touches + 1 })
  | some s =>
    if c.isExpired now s then (none, c.remove k)
    else
      let slot := { s with value := f s.value, touched := c.touches + 1 }
      (some s.value, { c with slots := c.slots.replace k slot, touches := c.touches + 1 })

/-- Looks an entry up. -/
def read (c : AgingCache κ ν) (now : Nanos) (k : κ) : Option ν × AgingCache κ ν :=
  c.modify now k id

/-- Whether a key is there. This is a look like any other. -/
def contains (c : AgingCache κ ν) (now : Nanos) (k : κ) : Bool × AgingCache κ ν :=
  let (value, c) := c.read now k
  (value.isSome, c)

/-- Takes out the entry that was touched longest ago, and tells its key. -/
def evict (c : AgingCache κ ν) : Option κ × AgingCache κ ν :=
  match leastTouched? c.slots.entries with
  | none => (none, c)
  | some e => (some e.1, c.remove e.1)

/-- Makes room for a new key: a full cache drops what is too old, and if it is
still full, it evicts one entry. -/
def makeRoom (c : AgingCache κ ν) (now : Nanos) : Option κ × AgingCache κ ν :=
  if c.size < c.capacity then (none, c)
  else
    let c := c.purge now
    if c.size < c.capacity then (none, c) else c.evict

/-- Writes a value. The result is the key that was evicted for it, if any. -/
def insert (c : AgingCache κ ν) (now : Nanos) (k : κ) (v : ν) : Option κ × AgingCache κ ν :=
  let slot : Slot ν := ⟨v, now, c.touches + 1⟩
  let (evicted, room) := if c.slots.contains k then (none, c) else c.makeRoom now
  (evicted, { room with slots := room.slots.insert k slot, touches := c.touches + 1 })

end AgingCache

end AbnfServer
