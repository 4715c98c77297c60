import Kuma.Nostr.Crate
import Kuma.Lib.HashMap

/-! The relay pool's book: which roads exist, for whom, and what each was handed to carry.
A road in the book has a live thread, and its queue here is all that the thread was ever handed. -/
namespace Kuma.Nostr
open Kuma.Lib (HashMap)

/-- Which roads an outbound event takes. -/
inductive Fan (N : Crate)
  | own
  | app (app : N.PublicKey)
  | onlyApp (app : N.PublicKey)

/-- One relay thread: its URL, the bunker key it subscribes for, and its queue. -/
structure Road (N : Crate) where
  url : String
  bunkerPubkey : N.PublicKey
  own : Bool
  app : Option N.PublicKey
  queue : List (N.Event × Fan N)

/-- Whether a road is one the fan names. -/
def Road.carries {N : Crate} (road : Road N) : Fan N → Bool
  | .own => road.own
  | .app who => road.own || road.app == some who
  | .onlyApp who => road.app == some who

structure RelayPool (N : Crate) where
  roads : List (Road N)
  ownUrls : List String
  appUrls : HashMap N.PublicKey (List String)

namespace RelayPool

variable {N : Crate}

def spawnOwn (bunkerPubkey : N.PublicKey) (pool : RelayPool N) (url : String) : RelayPool N :=
  if url ∈ pool.ownUrls then pool
  else { pool with
    ownUrls := pool.ownUrls ++ [url]
    roads := pool.roads ++ [⟨url, bunkerPubkey, true, none, []⟩] }

def spawn (relays : List String) (bunkerPubkey : N.PublicKey) : RelayPool N :=
  relays.foldl (spawnOwn bunkerPubkey) ⟨[], [], ∅⟩

def subscribeRelay (app bunkerPubkey : N.PublicKey) (pool : RelayPool N) (url : String) :
    RelayPool N :=
  let urls := (pool.appUrls.lookup app).getD []
  if url ∈ pool.ownUrls ∨ url ∈ urls then pool
  else { pool with
    appUrls := pool.appUrls.insert app (urls ++ [url])
    roads := pool.roads ++ [⟨url, bunkerPubkey, false, some app, []⟩] }

def subscribeRelays (app : N.PublicKey) (relays : List String) (bunkerPubkey : N.PublicKey)
    (pool : RelayPool N) : RelayPool N :=
  relays.foldl (subscribeRelay app bunkerPubkey) pool

def dropApp (app : N.PublicKey) (pool : RelayPool N) : RelayPool N where
  roads := pool.roads.filter fun road => road.app != some app
  ownUrls := pool.ownUrls
  appUrls := pool.appUrls.erase app

def send (pool : RelayPool N) (event : N.Event) (fan : Fan N) :
    RelayPool N × Except String Unit :=
  if pool.roads.isEmpty then (pool, .error "the relay threads are gone")
  else ({ pool with roads := pool.roads.map fun road =>
      if road.carries fan then { road with queue := road.queue ++ [(event, fan)] } else road },
    .ok ())

def publish (pool : RelayPool N) (event : N.Event) : RelayPool N × Except String Unit :=
  pool.send event .own

def publishFor (pool : RelayPool N) (event : N.Event) (app : N.PublicKey) :
    RelayPool N × Except String Unit := pool.send event (.app app)

/-- A handshake goes down the client's relays alone, when it has any of its own. -/
def publishOnlyTo (pool : RelayPool N) (event : N.Event) (app : N.PublicKey) :
    RelayPool N × Except String Unit :=
  if (pool.appUrls.lookup app).any fun urls => !urls.isEmpty then pool.send event (.onlyApp app)
  else pool.send event .own

end RelayPool
end Kuma.Nostr
