import MeChain.Lib.JsonObject
import MeChain.Lib.Table

/-!
# The stores of the web client

One Vuex module for each module of the chain: `vue/src/store/generated/*/index.ts`.  Their `Query...`
actions are of two shapes, with pages and without.  The `Service...` actions of `cosmos.tx.v1beta1` and
the two `cosmos.base` modules and the `Msg...` queries of `cosmos.group.v1` are not here.

* `Action`, `Payload`            a query action, and what it is dispatched with;
* `mergeResults`                 one page after another;
* `Store`                        the answers by query and key, and the subscriptions;
* `State.step`                   what can happen: a dispatch, an answer, a failed request, a block;
* `Run`                          any of these in any order, with any number of requests in flight.

Parameters, queries and answers are JSON values; a property that is `undefined` is a missing one.
-/

namespace MeChain.Vuex

open Json (Obj Props)

/-! ## actions -/

/-- `Query` and the name, the parameters in the path of the request, `query` and the loop over pages -/
structure Action where
  name : String
  path : List (List String)
  paged : Bool
deriving DecidableEq

structure VuexModule where
  actions : List Action
  nodup : (actions.map Action.name).Nodup

structure Options where
  subscribe : Option Bool
  all : Option Bool

structure Payload where
  options : Option Options
  params : Option Obj
  query : Option Obj

namespace Payload

/-- `options` is `{ subscribe: false, all: false }` when it is missing -/
def subscribe (p : Payload) : Option Bool :=
  match p.options with
  | none => some false
  | some o => o.subscribe

def all (p : Payload) : Option Bool :=
  match p.options with
  | none => some false
  | some o => o.all

def key (p : Payload) : Obj := p.params.getD Obj.empty

end Payload

/-- `null` without a query -/
def queryJson : Option Obj → Json
  | none => .null
  | some q => .obj q.props

/-- the name under which an answer is kept -/
def keyJson (key : Obj) (query : Option Obj) : Json :=
  .obj [("params", .obj key.props), ("query", queryJson query)]

def keyText (key : Obj) (query : Option Obj) : String := (keyJson key query).text

example : (keyJson Obj.empty none).write =
    "\x7b\x22params\x22:\x7b\x7d,\x22query\x22:null\x7d".toList := by decide

/-- `{ all }` -/
def allProps : Option Bool → Props
  | none => []
  | some b => [("all", .bool b)]

def subscription (a : Action) (p : Payload) : Json :=
  .obj [("action", .str ("Query" ++ a.name)),
    ("payload", .obj [("options", .obj (allProps p.all)), ("params", .obj p.key.props),
      ("query", queryJson p.query)])]

/-! ## requests and pages -/

/-- a property of a value; strings and arrays have none of the names that are asked for -/
def member : Json → String → Option Json
  | .obj l, name => Props.get l name
  | _, _ => none

/-- `key.a.b`; nothing can be read from `undefined` and `null` -/
def follow : Option Json → List String → Option (Option Json)
  | v, [] => some v
  | none, _ :: _ => none
  | some .null, _ :: _ => none
  | some v, name :: path => follow (member v name) path

def truthy : Json → Bool
  | .null => false
  | .bool b => b
  | .num n => n ≠ 0
  | .str s => s ≠ ""
  | .arr _ => true
  | .obj _ => true

/-- `value.pagination && value.pagination.next_key != null` -/
def nextKey (value : Props) : Option Json :=
  match value.get "pagination" with
  | none => none
  | some pagination =>
    if truthy pagination then
      match member pagination "next_key" with
      | none => none
      | some .null => none
      | some k => some k
    else none

structure Request where
  name : String
  args : List (Option Json)
  query : Option Props

namespace Action

/-- none when one of the arguments is a type error -/
def args (a : Action) (key : Obj) : Option (List (Option Json)) :=
  a.path.mapM (follow (some (.obj key.props)))

/-- the condition of the loop over pages -/
def next (a : Action) (p : Payload) (value : Props) : Option Json :=
  if a.paged = true ∧ p.all = some true then nextKey value else none

/-- the first request, or the one for the page of a key -/
def requestAt (a : Action) (p : Payload) (pageKey : Option Json) : Request where
  name := "query" ++ a.name
  args := (a.args p.key).getD []
  query := match pageKey with
    | none => if a.paged then p.query.map Obj.props else none
    | some k => some ((p.query.getD Obj.empty).props.set "pagination.key" k)

/-- the request that is out when so much of the value is there -/
def request (a : Action) (p : Payload) (value : Option Props) : Request :=
  a.requestAt p (value.bind (a.next p))

end Action

/-- `[...value]`; numbers, booleans, objects and `undefined` cannot be spread -/
def spread : Option Json → Option (List Json)
  | some (.arr l) => some l
  | some (.str s) => some (s.toList.map fun c => .str (String.singleton c))
  | _ => none

def mergeProp (value : Props) (p : String × Json) : Option Props :=
  match p.2 with
  | .arr next => (spread (value.get p.1)).map fun l => value.set p.1 (.arr (l ++ next))
  | v => some (value.set p.1 v)

/-- none for a type error -/
def mergeResults (value : Props) (nextValues : Obj) : Option Props :=
  nextValues.props.foldlM mergeProp value

/-! ## the store -/

/-- a set that lists its elements in the order they were added -/
abbrev Subscriptions := { l : List String // l.Nodup }

structure Store where
  results : Index (String × String) Props
  subscriptions : Subscriptions

namespace Store

/-- RESET_STATE -/
def default : Store := ⟨Table.empty, ⟨[], List.nodup_nil⟩⟩

/-- QUERY -/
def query (s : Store) (name text : String) (value : Props) : Store :=
  { s with results := s.results.put ((name, text), value) }

/-- SUBSCRIBE -/
def subscribe (s : Store) (text : String) : Store :=
  if h : text ∈ s.subscriptions.1 then s
  else { s with subscriptions := ⟨s.subscriptions.1 ++ [text],
    List.nodup_append.mpr ⟨s.subscriptions.2, List.nodup_singleton _, fun _ hx _ hy e =>
      h (List.mem_singleton.mp hy ▸ e ▸ hx)⟩⟩ }

/-- UNSUBSCRIBE -/
def unsubscribe (s : Store) (text : String) : Store :=
  { s with subscriptions := ⟨s.subscriptions.1.erase text, s.subscriptions.2.erase text⟩ }

def cached (s : Store) (name text : String) : Option Props :=
  (s.results.get (name, text)).map Prod.snd

/-- the getter of a query: `{}` when nothing is kept -/
def getter (s : Store) (name : String) (key : Obj) (query : Option Obj) : Props :=
  (s.cached name (keyText key query)).getD []

end Store

/-! ## dispatches -/

inductive Cause where
  | typeError
  | request (message : String)

structure QueryError where
  name : String
  cause : Cause

/-- the message, with the engine's own for type errors -/
def QueryError.message (typeError : String) (e : QueryError) : String :=
  "QueryClient:Query" ++ e.name ++ " API Node Unavailable. Could not perform query: " ++
    match e.cause with
    | .typeError => typeError
    | .request message => message

/-- a request is out, the pages before it are there; or the promise is settled -/
inductive Status where
  | pending (value : Option Props)
  | resolved (value : Props)
  | rejected (error : QueryError)

structure Dispatched where
  action : Action
  payload : Payload
  status : Status

structure State where
  store : Store
  promises : List Dispatched

def State.init : State := ⟨Store.default, []⟩

inductive Event where
  | dispatch (a : Action) (p : Payload)
  | answer (i : ℕ) (r : Request) (data : Obj)
  | fail (i : ℕ) (message : String)
  | newblock
  | resetState
  | unsubscribe (subscription : Json)

def boolOf : Option Json → Option Bool
  | some (.bool b) => some b
  | _ => none

def objOf : Option Json → Option Obj
  | some (.obj l) => some (Obj.of l)
  | _ => none

/-- a payload as it comes out of a text -/
def payloadOf (j : Json) : Payload where
  options := (member j "options").map fun o => ⟨boolOf (member o "subscribe"), boolOf (member o "all")⟩
  params := objOf (member j "params")
  query := objOf (member j "query")

/-- the action and the payload that a subscription names -/
def ofText (m : VuexModule) (text : String) : Option (Action × Payload) := do
  let sub ← Json.parse text
  let action ← member sub "action"
  let payload ← member sub "payload"
  let a ← m.actions.find? fun a => action = .str ("Query" ++ a.name)
  some (a, payloadOf payload)

namespace State

/-- up to the first request -/
def dispatch (s : State) (a : Action) (p : Payload) : State :=
  { s with promises := s.promises ++ [⟨a, p,
    if (a.args p.key).isSome then .pending none else .rejected ⟨a.name, .typeError⟩⟩] }

def settle (s : State) (i : ℕ) (d : Dispatched) (status : Status) : State :=
  { s with promises := s.promises.set i { d with status := status } }

/-- after the last answer: both commits, and the getter for the result -/
def finish (s : State) (i : ℕ) (d : Dispatched) (value : Props) : State :=
  let text := keyText d.payload.key d.payload.query
  let store := s.store.query d.action.name text value
  let store := if d.payload.subscribe = some true then
    store.subscribe (subscription d.action d.payload).text else store
  State.settle ⟨store, s.promises⟩ i d
    (.resolved (store.getter d.action.name d.payload.key d.payload.query))

def received (value : Option Props) (data : Obj) : Option Props :=
  match value with
  | none => some data.props
  | some value => mergeResults value data

def answer (s : State) (i : ℕ) (d : Dispatched) (value : Option Props) (data : Obj) : State :=
  match received value data with
  | none => s.settle i d (.rejected ⟨d.action.name, .typeError⟩)
  | some value =>
    match d.action.next d.payload value with
    | some _ => s.settle i d (.pending (some value))
    | none => s.finish i d value

/-- one subscription of StoreUpdate -/
def updateStep (m : VuexModule) (s : State) (text : String) : State :=
  match ofText m text with
  | some (a, p) => s.dispatch a p
  | none => s

def storeUpdate (m : VuexModule) (s : State) : State :=
  s.store.subscriptions.1.foldl (updateStep m) s

end State

/-- answers and failures come for requests that are out -/
inductive Step (m : VuexModule) : State → Event → State → Prop
  | dispatch {s} (a p) : a ∈ m.actions → Step m s (.dispatch a p) (s.dispatch a p)
  | answer {s i d value} (data) : s.promises[i]? = some d → d.status = .pending value →
      Step m s (.answer i (d.action.request d.payload value) data) (s.answer i d value data)
  | fail {s i d value} (message) : s.promises[i]? = some d → d.status = .pending value →
      Step m s (.fail i message) (s.settle i d (.rejected ⟨d.action.name, .request message⟩))
  | newblock {s} : Step m s .newblock (s.storeUpdate m)
  | resetState {s} : Step m s .resetState { s with store := Store.default }
  | unsubscribe {s} (j) :
      Step m s (.unsubscribe j) { s with store := s.store.unsubscribe j.text }

inductive Run (m : VuexModule) : List Event → State → Prop
  | nil : Run m [] State.init
  | snoc {es s e t} : Run m es s → Step m s e t → Run m (es ++ [e]) t

end MeChain.Vuex
