import Mathlib

namespace Logit.Datadog

/-- A request's route, in send order. -/
inductive Route where
  | series
  | distributionPoints
  | sketches
  | checkRun
  | events
  | logs
  | traces
  | stats
  deriving DecidableEq, Repr

def routes : List Route := [.series, .distributionPoints, .sketches, .checkRun, .events, .logs, .traces, .stats]

/-- The route's place among the routes, under which a batch's accounting knows its encode. -/
def Route.index : Route → Nat
  | .series => 0
  | .distributionPoints => 1
  | .sketches => 2
  | .checkRun => 3
  | .events => 4
  | .logs => 5
  | .traces => 6
  | .stats => 7

def usizeMax : Nat := 2 ^ 64 - 1

def saturatingAdd (a b : Nat) : Nat := min (a + b) usizeMax

/-- The difference of two times in nanoseconds. -/
def saturatingSub (a b : Int) : Int := max (-2 ^ 63) (min (2 ^ 63 - 1) (a - b))

structure Caps where
  entries : Nat
  rawBytes : Nat
  wireBytes : Nat
  deriving DecidableEq, Repr

def Caps.unbounded : Caps := ⟨usizeMax, usizeMax, usizeMax⟩

def Route.caps : Route → Caps
  | .series | .distributionPoints | .sketches => ⟨10000, 5242880, 512000⟩
  | .logs => ⟨1000, 5000000, usizeMax⟩
  | .events => { Caps.unbounded with entries := 1 }
  | .traces => { Caps.unbounded with rawBytes := 3200000 }
  | .checkRun | .stats => .unbounded

/-- An event of a route: its place in the batch and the entries that it writes there. -/
structure Item where
  index : Nat
  weight : Nat
  deriving DecidableEq, Repr

/-- What the metric routes read of a record: the series entries that it writes and how many of them
have too many tags, and whether the series, distribution and sketch routes take it. -/
structure Record where
  series : Nat
  overTagged : Nat
  seriesRoute : Bool
  distributionPoints : Bool
  sketch : Bool
  deriving DecidableEq, Repr

/-- What the routing reads of an event. -/
structure Event where
  timestamp : Int
  stats : Bool
  check : Bool
  datadogEvent : Bool
  metrics : List Record
  log : Bool
  span : Bool
  /-- The trace readiness gate lets the span go out. -/
  ready : Bool
  tags : Nat
  deriving DecidableEq, Repr

/-- The records that the metric routes take: a service check's first one is the check route's. -/
def Event.records (event : Event) : List Record := event.metrics.drop (if event.check then 1 else 0)

/-- The routes of an event with its weight on each. -/
def Event.pushes (event : Event) : List (Route × Nat) :=
  if event.stats then [(.stats, 1)]
  else
    let points := event.records.countP fun r => r.distributionPoints
    let sketches := event.records.countP fun r => r.sketch
    (if event.check then [(Route.checkRun, 1)] else []) ++
    (if event.datadogEvent then [(.events, 1)] else []) ++
    (if event.records.any fun r => r.seriesRoute then
      [(.series, (event.records.map fun r => r.series).sum)] else []) ++
    (if 0 < points then [(.distributionPoints, points)] else []) ++
    (if 0 < sketches then [(.sketches, sketches)] else []) ++
    (if event.log && !event.datadogEvent then [(.logs, 1)] else []) ++
    (if event.span then [(.traces, 1)] else [])

def partition (events : List Event) (route : Route) : List (Event × Item) :=
  events.zipIdx.flatMap fun (event, index) => event.pushes.filterMap fun (r, weight) =>
    if r = route then some (event, ⟨index, weight⟩) else none

def minute : Int := 60 * 10 ^ 9
def metricMaxAge : Int := 60 * minute
def metricMaxAhead : Int := 10 * minute
def logMaxAge : Int := 18 * 60 * minute
def checkMaxAge : Int := 10 * minute
def maxMetricTags : Nat := 100

/-- Whether an event's time is in the window that its route takes. -/
def Route.keeps (route : Route) (now : Int) (event : Event) : Bool :=
  let age := saturatingSub now event.timestamp
  match route with
  | .stats => true
  | .checkRun => age ≤ checkMaxAge
  | .events | .logs => age ≤ logMaxAge
  | .series | .distributionPoints | .sketches =>
    age ≤ metricMaxAge && saturatingSub event.timestamp now ≤ metricMaxAhead
  | .traces => event.ready

/-- An item as its route sends it, after the stale filter, the tag limit and the readiness gate. -/
def Route.plan (route : Route) (now : Int) (event : Event) (item : Item) : Option Item :=
  if !route.keeps now event then none
  else match route with
    | .series => some { item with weight := item.weight - (event.records.map fun r => r.overTagged).sum }
    | .distributionPoints | .sketches => if maxMetricTags < event.tags then none else some item
    | _ => some item

def plan (events : List Event) (now : Int) (route : Route) : List Item :=
  (partition events route).filterMap fun (event, item) => route.plan now event item

/-- A request's body with its length before compression. -/
structure Encoded where
  rawLen : Nat
  body : List UInt8

structure Split where
  requests : List (List Item × Encoded)
  oversize : List (Item × Nat × Nat)

/-- Cuts a chunk by bisection until its bodies are under the byte caps. -/
def fit (caps : Caps) (encode : List Item → Option Encoded) (items : List Item) : Split :=
  match encode items with
  | none => ⟨[], []⟩
  | some encoded =>
    if encoded.rawLen ≤ caps.rawBytes && encoded.body.length ≤ caps.wireBytes then ⟨[(items, encoded)], []⟩
    else match items with
      | [] => ⟨[], []⟩
      | [item] => ⟨[], [(item, encoded.rawLen, encoded.body.length)]⟩
      | a :: b :: rest =>
        let mid := (a :: b :: rest).length / 2
        let left := fit caps encode ((a :: b :: rest).take mid)
        let right := fit caps encode ((a :: b :: rest).drop mid)
        ⟨left.requests ++ right.requests, left.oversize ++ right.oversize⟩
  termination_by items.length
  decreasing_by
    · simp only [List.length_take, List.length_cons]
      omega
    · simp only [List.length_drop, List.length_cons]
      omega

/-- Cuts items by entry count; an item over the cap goes alone. The chunk being filled and its
entries come first. -/
def cut (caps : Caps) (chunk : List Item) (entries : Nat) : List Item → List (List Item)
  | [] => if chunk = [] then [] else [chunk]
  | item :: rest =>
    if chunk ≠ [] ∧ caps.entries < saturatingAdd entries item.weight then
      chunk :: cut caps [item] item.weight rest
    else cut caps (chunk ++ [item]) (saturatingAdd entries item.weight) rest

/-- The requests that items are cut into, in order. -/
def splitEncode (items : List Item) (caps : Caps) (encode : List Item → Option Encoded) : Split :=
  let parts := (cut caps [] 0 items).map (fit caps encode)
  ⟨parts.flatMap Split.requests, parts.flatMap Split.oversize⟩

end Logit.Datadog
