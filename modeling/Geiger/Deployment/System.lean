import Geiger.Client.Session
import Geiger.Ingest.Adapter
import Geiger.Service.Builds
import Geiger.Service.Handshake

/-!
# The whole system

The service with the adapter of every stream, the channel from each adapter to its
worker, and any number of subscribers.  An adapter runs for ever, so its channel is never
closed from that side.  What a connection has written reaches its client in order; a
connection is a new one for each session.
-/

namespace Geiger

open Runs

/-- What the system takes from outside: how it was built, the mathematical functions, the
readers of its texts, and what the feed handler makes of a symbol. -/
structure World (K W : Type) where
  build : Build
  libm : Libm K
  readStreams : String → Except String (List (StreamConfig K))
  readJson : String → Option Json
  symbolOf : Exchange → String → Symbol
  codec : Codec K W
  authToken : Option String

/-- An adapter with its unbounded channel. -/
structure Feed where
  adapter : Adapter
  /-- How many of the trades sent the worker has taken. -/
  received : ℕ

def Feed.new (backoff : BackoffConfig) : Feed := ⟨Adapter.new backoff, 0⟩

/-- Where the session of a subscriber stands on the side of the service. -/
inductive Link where
  | down
  | requested
  /-- The connection `c` of the stream `i`, of whose messages so many have arrived. -/
  | attached (i c arrived : ℕ)
  | unknown (told : Bool)
deriving DecidableEq

/-- A `ToxicityClient` with what it sends. -/
structure Subscriber (F : Type) where
  request : SubscribeRequest
  headers : Headers
  client : ToxicityClient F
  link : Link

variable {K W : Type} [Field K] [LinearOrder K]

structure Deployment (K : Type) [Field K] [LinearOrder K] where
  service : Service K
  feeds : List Feed
  subscribers : ℕ → Subscriber K

namespace Subscriber

inductive Event where
  | attempt
  | refused
  | established
  /-- The service has read the request, on this connection. -/
  | served (c : ℕ)
  | deliver
  | otherFrame
  | stalenessCheck
  | ended
  | wait (d : ℕ)

def key {F : Type} (u : Subscriber F) : String :=
  streamKey u.request.exchange u.request.symbol

end Subscriber

namespace Deployment

inductive Event (K : Type) where
  | service (e : Service.Event K)
  | adapter (i : ℕ) (e : Adapter.Event)
  /-- The worker of a stream takes the next trade from its channel. -/
  | receive (i : ℕ)
  | subscriber (j : ℕ) (e : Subscriber.Event)

/-- The service before its first spawn, and the subscribers before their first attempts. -/
def deploy (service : Service K) (request : ℕ → SubscribeRequest) (headers : ℕ → Headers)
    (staleAfter : ℕ → ℕ) : Deployment K :=
  ⟨service, [], fun j ↦ ⟨request j, headers j, .connect (staleAfter j), .down⟩⟩

/-- Every stream that a step has spawned gets an adapter. -/
def withService (d : Deployment K) (service : Service K) : Deployment K :=
  { d with
    service
    feeds := d.feeds ++
      (service.registry.items.drop d.feeds.length).map fun w ↦ Feed.new w.backoff }

def setFeed (d : Deployment K) (i : ℕ) (f : Feed) : Deployment K :=
  { d with feeds := d.feeds.set i f }

def setSubscriber (d : Deployment K) (j : ℕ) (u : Subscriber K) : Deployment K :=
  { d with subscribers := Function.update d.subscribers j u }

/-- The receiver is dropped when the worker has ended. -/
def ended : WorkerState K → Bool
  | .exited | .panicked => true
  | _ => false

/-- Trades come through the channel, which nobody closes. -/
def IsInternal : Service.Event K → Bool
  | .stream _ (.trade _) | .stream _ .closed => false
  | _ => true

def decoderOf (world : World K W) (w : Spawned K) : Decoder :=
  decoder world.readJson (world.symbolOf w.exchange w.config.symbol) w.exchange

def adapterStep (world : World K W) (d : Deployment K) (i : ℕ) (e : Adapter.Event) :
    Option (Deployment K) :=
  match d.service.registry.items[i]?, d.feeds[i]? with
  | some w, some f =>
    match e, ended w.stream.worker with
    | .receiverDropped, false => none
    | e, _ =>
      (f.adapter.step (decoderOf world w) e).map fun adapter ↦ d.setFeed i { f with adapter }
  | _, _ => none

/-- The texts of the error that the service writes before it closes the connection. -/
def unknownStream (key : String) : ServerMessage K := .error ("unknown stream: " ++ key)

/-- The next message of the session, and where it then stands. -/
def nextMessage (d : Deployment K) (u : Subscriber K) : Option (ServerMessage K × Link) :=
  match u.link with
  | .attached i c arrived =>
    (d.service.registry.items[i]?.bind fun w ↦ (w.stream.fanout.conns c).written[arrived]?).map
      fun msg ↦ (msg, .attached i c (arrived + 1))
  | .unknown false => some (unknownStream u.key, .unknown true)
  | _ => none

/-- An event that concerns the client alone. -/
def clientStep (world : World K W) (d : Deployment K) (j : ℕ) (link : Link)
    (e : ToxicityClient.Event W) : Option (Deployment K) :=
  ((d.subscribers j).client.step world.codec.fromStr e).map fun client ↦
    d.setSubscriber j { d.subscribers j with client, link }

variable [FloorSemiring K]

def receive (world : World K W) (d : Deployment K) (i : ℕ) : Option (Deployment K) :=
  d.feeds[i]?.bind fun f ↦ f.adapter.sent[f.received]?.bind fun t ↦
    (d.service.streamStepIn world.build world.libm i (.trade t)).map fun service ↦
      { d with service }.setFeed i { f with received := f.received + 1 }

/-- The request has been read: the connection subscribes to the stream found under the key,
and an unknown key is answered with an error. -/
def served (world : World K W) (d : Deployment K) (j c : ℕ) : Option (Deployment K) :=
  let u := d.subscribers j
  if u.link = .requested then
    match d.service.registry.index u.key with
    | none => some (d.setSubscriber j { u with link := .unknown false })
    | some i =>
      (d.service.step world.libm world.readStreams (.subscribe u.request c)).map fun service ↦
        { d with service }.setSubscriber j { u with link := .attached i c 0 }
  else none

def subscriberStep (world : World K W) (d : Deployment K) (j : ℕ) :
    Subscriber.Event → Option (Deployment K)
  | .attempt => d.clientStep world j .down .attempt
  | .refused => d.clientStep world j .down .refused
  | .established =>
    match d.service.starting, checkAuth (d.subscribers j).headers world.authToken with
    | [], .ok () => d.clientStep world j .requested .established
    | _, _ => none
  | .served c => d.served world j c
  | .deliver =>
    (d.nextMessage (d.subscribers j)).bind fun (msg, link) ↦
      d.clientStep world j link (.text (world.codec.toString msg))
  | .otherFrame => d.clientStep world j (d.subscribers j).link .otherFrame
  | .stalenessCheck => d.clientStep world j (d.subscribers j).link .stalenessCheck
  | .ended => d.clientStep world j .down .ended
  | .wait n => d.clientStep world j (d.subscribers j).link (.wait n)

def step (world : World K W) (d : Deployment K) : Event K → Option (Deployment K)
  | .service e =>
    if IsInternal e then
      (d.service.step world.libm world.readStreams e).map d.withService
    else none
  | .adapter i e => d.adapterStep world i e
  | .receive i => d.receive world i
  | .subscriber j e => d.subscriberStep world j e

end Deployment

end Geiger
