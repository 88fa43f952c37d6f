import Ekapkgs.CasPull
import Ekapkgs.Lib.Runs

/-!
# The substituter proxy

`substituter.rs`: a narinfo request looks into the cache, asks upstream when it
finds no fresh entry, caches what comes back, and looks again. Requests run
concurrently: the lock on the cache is held for a lookup and while a response is
cached, not in between.
-/

namespace Ekapkgs
open Runs

/-- In nanoseconds. -/
def cacheTtl : Nat := 300 * 10 ^ 9

/-- Hash → (entry, fetched_at). -/
abbrev NarinfoMap := String → Option (ManifestEntry × Nat)

/-- Cache all entries from a negotiate response. -/
def cacheResponse (cache : NarinfoMap) (available : List ManifestEntry) (now : Nat) : NarinfoMap :=
  available.foldl (fun cache entry => Function.update cache entry.hash (some (entry, now))) cache

inductive ProxyResponse where
  | notFound
  | ok (narinfo : String)
  deriving DecidableEq

def buildNarinfo (entry : ManifestEntry) : String := buildNarinfoText entry

def ProxyResponse.of : Option ManifestEntry → ProxyResponse
  | none => .notFound
  | some entry => .ok (buildNarinfo entry)

/-! ## Requests -/

/-- Where a request is. What upstream answered, and when the answer came, is kept. -/
inductive ProxyPhase where
  | received (hashNarinfo : String)
  /-- No fresh entry was found. -/
  | negotiating (hash : String)
  | answered (hash : String) (available : List ManifestEntry)
  | fetched (hash : String) (available : List ManifestEntry) (now : Nat)
  /-- The response is cached, or there was none. -/
  | negotiated (hash : String) (response : Option (List ManifestEntry × Nat))
  | returnedFresh (hash : String) (entry : ManifestEntry) (fetchedAt now : Nat)
  | returned (hash : String) (response : Option (List ManifestEntry × Nat)) (result : Option ManifestEntry)
  deriving DecidableEq

def ProxyPhase.reply : ProxyPhase → Option ProxyResponse
  | .returnedFresh _ entry _ _ => some (.of (some entry))
  | .returned _ _ result => some (.of result)
  | _ => none

/-- `upstream` is what a negotiation for one hash would answer now. -/
structure Proxy (ι : Type) where
  now : Nat
  upstream : String → List ManifestEntry
  narinfoCache : NarinfoMap
  phase : ι → ProxyPhase

inductive ProxyCall where
  | lookup
  /-- Upstream makes its answer. -/
  | answer
  /-- The answer is there, and `Instant::now()` is taken. -/
  | receive
  | cache
  | fail
  | lookupAgain

inductive ProxyEvent (ι : Type) where
  | upstream (upstream : String → List ManifestEntry)
  | tick (elapsed : Nat)
  | call (i : ι) (c : ProxyCall)

variable {ι : Type} [DecidableEq ι]

def Proxy.setPhase (s : Proxy ι) (i : ι) (p : ProxyPhase) : Proxy ι := { s with phase := Function.update s.phase i p }

def Proxy.start (upstream : String → List ManifestEntry) (requests : ι → String) : Proxy ι :=
  ⟨0, upstream, fun _ => none, fun i => .received (requests i)⟩

def Proxy.lookup (s : Proxy ι) (hash : String) : ProxyPhase :=
  match s.narinfoCache hash with
  | some (entry, fetchedAt) => if s.now - fetchedAt < cacheTtl then .returnedFresh hash entry fetchedAt s.now else .negotiating hash
  | none => .negotiating hash

def Proxy.call (s : Proxy ι) (i : ι) (c : ProxyCall) : Option (Proxy ι) :=
  match s.phase i, c with
  | .received hashNarinfo, .lookup => some (s.setPhase i (s.lookup ((stripSuffix ".narinfo" hashNarinfo).getD hashNarinfo)))
  | .negotiating hash, .answer => some (s.setPhase i (.answered hash (s.upstream hash)))
  | .answered hash available, .receive => some (s.setPhase i (.fetched hash available s.now))
  | .fetched hash available now, .cache =>
    some ({ s with narinfoCache := cacheResponse s.narinfoCache available now }.setPhase i (.negotiated hash (some (available, now))))
  | .negotiating hash, .fail => some (s.setPhase i (.negotiated hash none))
  | .answered hash _, .fail => some (s.setPhase i (.negotiated hash none))
  -- the time of the entry plays no part any more
  | .negotiated hash response, .lookupAgain => some (s.setPhase i (.returned hash response ((s.narinfoCache hash).map Prod.fst)))
  | _, _ => none

def Proxy.next (s : Proxy ι) : ProxyEvent ι → Option (Proxy ι)
  | .upstream upstream => some { s with upstream }
  | .tick elapsed => some { s with now := s.now + elapsed }
  | .call i c => s.call i c

abbrev proxyStep : Proxy ι → ProxyEvent ι → Proxy ι → Prop := stepOf Proxy.next

end Ekapkgs
