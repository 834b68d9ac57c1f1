-- A report on the remembered scans. Entries that are too old are dropped
-- first, so the report counts live ones only.
import AbnfServer.Cache.Scans

namespace AbnfServer

/-- The size and the limits of one cache. -/
structure CacheUse where
  size : Nat
  capacity : Nat
  /-- The lifetime in milliseconds, at most `2 ^ 64 - 1`. -/
  lifetimeMillis : Nat
deriving DecidableEq, Repr

/-- The use of both caches, and the documents whose rules are remembered, by
URI. The time of day at which each of them was written is left out: it comes from
a clock of its own, and nothing depends on it. -/
structure CacheReport where
  rules : CacheUse
  references : CacheUse
  entries : List (String × Int)
deriving DecidableEq, Repr

def AgingCache.use {κ ν : Type} (c : AgingCache κ ν) : CacheUse :=
  ⟨c.size, c.capacity, min c.lifetime.millis (UInt64.size - 1)⟩

/-- Takes a report. -/
def ScanCache.report (c : ScanCache) (now : Nanos) : CacheReport × ScanCache :=
  let c : ScanCache := ⟨c.rules.purge now, c.references.purge now⟩
  let entries := (c.rules.live now).map fun e => (e.1, e.2.version)
  (⟨c.rules.use, c.references.use, entries.mergeSort fun a b => a.1 ≤ b.1⟩, c)

end AbnfServer
