import MeChain.Client.Store

/-!
# What the stores of the web client hold

* `Fetched`               the answers that one dispatch gets, and what it makes of them;
* `Consistent`            the invariant: every promise has its own answers only, and what is cached
                          or subscribed to comes from a dispatch;
* `cached_complete`       the cache holds whole results of the query it is asked for;
* `store_update`          a block repeats exactly the dispatches that were subscribed.
-/

namespace MeChain.Vuex

open Json (Obj Props)

/-! ## keys and subscriptions as texts -/

theorem queryJson_canonical (query : Option Obj) : (queryJson query).Canonical := by
  cases query with
  | none => rfl
  | some q => exact q.canonical

theorem queryJson_injective : Function.Injective queryJson := by
  intro q r h
  cases q <;> cases r <;> simp_all [queryJson]
  exact Obj.ext h

/-- different parameters or queries are kept under different names -/
theorem keyText_inj {key key' : Obj} {query query' : Option Obj}
    (h : keyText key query = keyText key' query') : key = key' ∧ query = query' := by
  have hj := Json.text_injective h
  simp only [keyJson, Json.obj.injEq, List.cons.injEq, Prod.mk.injEq, true_and, and_true] at hj
  exact ⟨Obj.ext hj.1, queryJson_injective hj.2⟩

theorem allProps_canonical (all : Option Bool) : (Json.obj (allProps all)).Canonical := by
  cases all <;> rfl

theorem subscription_canonical (a : Action) (p : Payload) : (subscription a p).Canonical := by
  have hpayload : Json.Canonical (.obj [("options", .obj (allProps p.all)),
      ("params", .obj p.key.props), ("query", queryJson p.query)]) := by
    refine Json.canonical_obj (by simp [Props.Ordered]; decide) ?_
    simp [allProps_canonical, queryJson_canonical, p.key.canonical]
  refine Json.canonical_obj (by simp [Props.Ordered]; decide) ?_
  simp only [List.mem_cons, List.not_mem_nil, or_false, forall_eq_or_imp, forall_eq]
  exact ⟨rfl, hpayload⟩

/-- what a subscription dispatches: the same parameters and query, without `subscribe` -/
def Payload.again (p : Payload) : Payload := ⟨some ⟨none, p.all⟩, some p.key, p.query⟩

theorem objOf_queryJson (query : Option Obj) : objOf (some (queryJson query)) = query := by
  cases query with
  | none => rfl
  | some q => rw [queryJson, objOf, Obj.of_props]

theorem payloadOf_again (p : Payload) :
    payloadOf (.obj [("options", .obj (allProps p.all)), ("params", .obj p.key.props),
      ("query", queryJson p.query)]) = p.again := by
  have hall : boolOf (member (.obj (allProps p.all)) "all") = p.all := by
    cases p.all <;> rfl
  have hsubscribe : boolOf (member (.obj (allProps p.all)) "subscribe") = none := by
    cases p.all <;> rfl
  have hquery := objOf_queryJson p.query
  have hparams : objOf (some (.obj p.key.props)) = some p.key := by rw [objOf, Obj.of_props]
  simp only [payloadOf, member, Props.get] at hall hsubscribe ⊢
  simp [hall, hsubscribe, hquery, hparams, Payload.again]

theorem ofText_subscription {m : VuexModule} {a : Action} (ha : a ∈ m.actions) (p : Payload) :
    ofText m (subscription a p).text = some (a, p.again) := by
  have hfind : m.actions.find? (fun b => a.name = b.name) = some a := by
    cases h : m.actions.find? fun b => a.name = b.name with
    | none => exact absurd (List.find?_eq_none.mp h a ha) (by simp)
    | some b =>
      have hname : a.name = b.name := by simpa using List.find?_some h
      rw [List.inj_on_of_nodup_map m.nodup (List.mem_of_find?_eq_some h) ha hname.symm]
  rw [ofText, Json.parse_text (subscription_canonical a p)]
  simp [subscription, member, Props.get, hfind, payloadOf_again]

/-! ## one dispatch -/

/-- the requests of a dispatch with their answers, and the value that they make -/
inductive Exchange (a : Action) (p : Payload) : List (Request × Obj) → Props → Prop
  | first (data : Obj) : Exchange a p [(a.request p none, data)] data.props
  | next {log value value'} (data : Obj) : Exchange a p log value → (a.next p value).isSome →
      mergeResults value data = some value' →
      Exchange a p (log ++ [(a.request p (some value), data)]) value'

/-- and no page is missing -/
def Fetched (a : Action) (p : Payload) (log : List (Request × Obj)) (value : Props) : Prop :=
  Exchange a p log value ∧ a.next p value = none

theorem Exchange.of_same {a : Action} {p q : Payload} {log : List (Request × Obj)} {value : Props}
    (hrequest : ∀ v, a.request p v = a.request q v) (hnext : ∀ v, a.next p v = a.next q v)
    (h : Exchange a p log value) : Exchange a q log value := by
  induction h with
  | first data =>
    rw [hrequest]
    exact .first data
  | next data _ hmore hmerge ih =>
    rw [hrequest]
    exact .next data ih (hnext _ ▸ hmore) hmerge

theorem again_exchange {a : Action} {p : Payload} {log : List (Request × Obj)} {value : Props} :
    Exchange a p.again log value ↔ Exchange a p log value :=
  ⟨Exchange.of_same (fun _ => rfl) fun _ => rfl, Exchange.of_same (fun _ => rfl) fun _ => rfl⟩

theorem again_fetched {a : Action} {p : Payload} {log : List (Request × Obj)} {value : Props} :
    Fetched a p.again log value ↔ Fetched a p log value := and_congr_left fun _ => again_exchange

/-! ## the answers of a run -/

/-- the request of one promise that an event answers -/
def Event.answerTo (i : ℕ) : Event → Option (Request × Obj)
  | .answer j r data => if j = i then some (r, data) else none
  | _ => none

def exchange (i : ℕ) (es : List Event) : List (Request × Obj) := es.filterMap (Event.answerTo i)

theorem exchange_snoc (i : ℕ) (es : List Event) (e : Event) :
    exchange i (es ++ [e]) = exchange i es ++ (e.answerTo i).toList := by
  rw [exchange, exchange, List.filterMap_append]
  cases h : e.answerTo i <;> simp [h]

/-- how far a promise is with the answers it had -/
def Progress (d : Dispatched) (log : List (Request × Obj)) : Prop :=
  match d.status with
  | .pending none => log = [] ∧ (d.action.args d.payload.key).isSome
  | .pending (some value) => Exchange d.action d.payload log value ∧
      (d.action.next d.payload value).isSome ∧ (d.action.args d.payload.key).isSome
  | .resolved value => Fetched d.action d.payload log value
  | .rejected _ => True

structure Consistent (m : VuexModule) (es : List Event) (s : State) : Prop where
  action : ∀ (i : ℕ) (d : Dispatched), s.promises[i]? = some d → d.action ∈ m.actions
  progress : ∀ (i : ℕ) (d : Dispatched), s.promises[i]? = some d → Progress d (exchange i es)
  asked : ∀ (i : ℕ) (d : Dispatched), s.promises[i]? = some d → d.payload.subscribe = some true →
    Event.dispatch d.action d.payload ∈ es
  fresh : ∀ i, s.promises.length ≤ i → exchange i es = []
  cached : ∀ name text value, s.store.cached name text = some value →
    ∃ (i : ℕ) (d : Dispatched), s.promises[i]? = some d ∧ d.status = .resolved value ∧
      d.action.name = name ∧ keyText d.payload.key d.payload.query = text
  subscribed : ∀ text ∈ s.store.subscriptions.1, ∃ a p, Event.dispatch a p ∈ es ∧ a ∈ m.actions ∧
    p.subscribe = some true ∧ (a.args p.key).isSome ∧ text = (subscription a p).text

/-! ## the operations of the store -/

namespace Store

theorem cached_query (s : Store) (name text : String) (value : Props) (name' text' : String) :
    (s.query name text value).cached name' text' =
      if (name', text') = (name, text) then some value else s.cached name' text' := by
  rw [cached, query, Table.get_put]
  split <;> rfl

theorem cached_subscribe (s : Store) (t name text : String) :
    (s.subscribe t).cached name text = s.cached name text := by
  rw [subscribe]
  split <;> rfl

theorem mem_subscribe {s : Store} {t text : String} (h : text ∈ (s.subscribe t).subscriptions.1) :
    text ∈ s.subscriptions.1 ∨ text = t := by
  rw [subscribe] at h
  split at h
  · exact .inl h
  · exact (List.mem_append.mp h).imp_right List.mem_singleton.mp

end Store

section
variable {m : VuexModule} {es : List Event} {s : State} {e : Event}

/-! ## steps -/

theorem Consistent.init : Consistent m [] State.init where
  action i d h := by simp [State.init] at h
  progress i d h := by simp [State.init] at h
  asked i d h := by simp [State.init] at h
  fresh _ _ := rfl
  cached name text value h := by simp [State.init, Store.default, Store.cached, Table.get, Table.empty] at h
  subscribed text h := by simp [State.init, Store.default] at h

theorem Consistent.event (h : Consistent m es s) (he : ∀ i, e.answerTo i = none) :
    Consistent m (es ++ [e]) s := by
  have hx (i : ℕ) : exchange i (es ++ [e]) = exchange i es := by
    rw [exchange_snoc, he i, Option.toList_none, List.append_nil]
  refine ⟨h.action, fun i d hd => hx i ▸ h.progress i d hd, fun i d hd hs =>
    List.mem_append_left _ (h.asked i d hd hs), fun i hi => hx i ▸ h.fresh i hi, h.cached,
    fun text ht => ?_⟩
  obtain ⟨a, p, hmem, hrest⟩ := h.subscribed text ht
  exact ⟨a, p, List.mem_append_left _ hmem, hrest⟩

theorem Consistent.dispatch (h : Consistent m es s) {a : Action} {p : Payload} (ha : a ∈ m.actions)
    (hp : p.subscribe = some true → Event.dispatch a p ∈ es) : Consistent m es (s.dispatch a p) := by
  have hget {i : ℕ} {d : Dispatched} (hd : (s.dispatch a p).promises[i]? = some d) :
      s.promises[i]? = some d ∨ i = s.promises.length ∧ d = ⟨a, p,
        if (a.args p.key).isSome then .pending none else .rejected ⟨a.name, .typeError⟩⟩ := by
    rw [State.dispatch, List.getElem?_append] at hd
    split at hd
    · exact .inl hd
    · rename_i hi
      obtain ⟨hlt, rfl⟩ := List.getElem?_eq_some_iff.mp hd
      rw [List.length_singleton] at hlt
      exact .inr ⟨by omega, by simp⟩
  constructor
  case action =>
    intro i d hd
    rcases hget hd with hd | ⟨-, rfl⟩
    · exact h.action i d hd
    · exact ha
  case progress =>
    intro i d hd
    rcases hget hd with hd | ⟨rfl, rfl⟩
    · exact h.progress i d hd
    · cases hargs : (a.args p.key).isSome with
      | true => simp [Progress, hargs, h.fresh _ le_rfl]
      | false => simp [Progress]
  case asked =>
    intro i d hd hs
    rcases hget hd with hd | ⟨-, rfl⟩
    · exact h.asked i d hd hs
    · exact hp hs
  case fresh =>
    intro i hi
    rw [State.dispatch, List.length_append] at hi
    exact h.fresh i (by omega)
  case cached =>
    intro name text value hv
    obtain ⟨i, d, hd, hrest⟩ := h.cached name text value hv
    refine ⟨i, d, ?_, hrest⟩
    rw [State.dispatch, List.getElem?_append_left (List.getElem?_eq_some_iff.mp hd).1]
    exact hd
  case subscribed => exact h.subscribed

theorem Consistent.args (h : Consistent m es s) {i : ℕ} {d : Dispatched} {value : Option Props}
    (hd : s.promises[i]? = some d) (hpending : d.status = .pending value) :
    (d.action.args d.payload.key).isSome := by
  have hp := h.progress i d hd
  rw [Progress, hpending] at hp
  cases value with
  | none => exact hp.2
  | some v => exact hp.2.2

/-- a pending promise goes on; the store may get its value and its subscription -/
theorem Consistent.settle (h : Consistent m es s) {i : ℕ} {d : Dispatched} {value : Option Props}
    (hd : s.promises[i]? = some d) (hpending : d.status = .pending value) {status : Status}
    {store : Store} (hi : Progress { d with status := status } (exchange i (es ++ [e])))
    (hother : ∀ j, j ≠ i → e.answerTo j = none)
    (hcached : ∀ name text v, store.cached name text = some v → s.store.cached name text = some v ∨
      status = .resolved v ∧ d.action.name = name ∧ keyText d.payload.key d.payload.query = text)
    (hsub : ∀ text ∈ store.subscriptions.1, text ∈ s.store.subscriptions.1 ∨
      d.payload.subscribe = some true ∧ text = (subscription d.action d.payload).text) :
    Consistent m (es ++ [e]) (State.settle ⟨store, s.promises⟩ i d status) := by
  have hlen := (List.getElem?_eq_some_iff.mp hd).1
  have hself : (State.settle ⟨store, s.promises⟩ i d status).promises[i]? =
      some { d with status := status } := by simp [State.settle, hlen]
  have hne {j : ℕ} (hj : j ≠ i) : (State.settle ⟨store, s.promises⟩ i d status).promises[j]? =
      s.promises[j]? := by simp [State.settle, hj.symm]
  have hx {j : ℕ} (hj : j ≠ i) : exchange j (es ++ [e]) = exchange j es := by
    rw [exchange_snoc, hother j hj, Option.toList_none, List.append_nil]
  have hargs := h.args hd hpending
  constructor
  case action =>
    intro j d' hd'
    rcases eq_or_ne j i with rfl | hj
    · rw [hself] at hd'
      exact Option.some.inj hd' ▸ h.action j d hd
    · exact h.action j d' (hne hj ▸ hd')
  case progress =>
    intro j d' hd'
    rcases eq_or_ne j i with rfl | hj
    · rw [hself] at hd'
      exact Option.some.inj hd' ▸ hi
    · exact hx hj ▸ h.progress j d' (hne hj ▸ hd')
  case asked =>
    intro j d' hd' hs
    refine List.mem_append_left _ ?_
    rcases eq_or_ne j i with rfl | hj
    · rw [hself, Option.some.injEq] at hd'
      subst hd'
      exact h.asked j d hd hs
    · exact h.asked j d' (hne hj ▸ hd') hs
  case fresh =>
    intro j hj
    simp only [State.settle, List.length_set] at hj
    rw [hx (by omega)]
    exact h.fresh j hj
  case cached =>
    intro name text v hv
    rcases hcached name text v hv with hv | ⟨hstatus, hname, htext⟩
    · obtain ⟨j, d', hd', hresolved, hrest⟩ := h.cached name text v hv
      have hj : j ≠ i := by
        rintro rfl
        rw [hd, Option.some.injEq] at hd'
        rw [← hd', hpending] at hresolved
        exact Status.noConfusion hresolved
      exact ⟨j, d', by rw [hne hj]; exact hd', hresolved, hrest⟩
    · exact ⟨i, _, hself, hstatus, hname, htext⟩
  case subscribed =>
    intro text ht
    rcases hsub text ht with ht | ⟨hs, htext⟩
    · obtain ⟨a, p, hmem, hrest⟩ := h.subscribed text ht
      exact ⟨a, p, List.mem_append_left _ hmem, hrest⟩
    · exact ⟨d.action, d.payload, List.mem_append_left _ (h.asked i d hd hs), h.action i d hd, hs,
        hargs, htext⟩

theorem Consistent.received (h : Consistent m es s) {i : ℕ} {d : Dispatched} {value : Option Props}
    (hd : s.promises[i]? = some d) (hpending : d.status = .pending value) {data : Obj} {v : Props}
    (hv : State.received value data = some v) :
    Exchange d.action d.payload
      (exchange i (es ++ [.answer i (d.action.request d.payload value) data])) v := by
  have hp := h.progress i d hd
  rw [Progress, hpending] at hp
  rw [exchange_snoc, Event.answerTo, if_pos rfl, Option.toList_some]
  cases value with
  | none =>
    rw [State.received, Option.some.injEq] at hv
    rw [hp.1, List.nil_append, ← hv]
    exact .first data
  | some w => exact .next data hp.1 hp.2.1 hv

/-- both commits leave the result where the getter looks for it -/
theorem finish_eq (s : State) (i : ℕ) (d : Dispatched) (value : Props) :
    ∃ store, s.finish i d value = State.settle ⟨store, s.promises⟩ i d (.resolved value) ∧
      (∀ name text v, store.cached name text = some v → s.store.cached name text = some v ∨
        v = value ∧ d.action.name = name ∧ keyText d.payload.key d.payload.query = text) ∧
      (∀ text ∈ store.subscriptions.1, text ∈ s.store.subscriptions.1 ∨
        d.payload.subscribe = some true ∧ text = (subscription d.action d.payload).text) := by
  have hquery (name text : String) (v : Props) (h : (s.store.query d.action.name
      (keyText d.payload.key d.payload.query) value).cached name text = some v) :
      s.store.cached name text = some v ∨
        v = value ∧ d.action.name = name ∧ keyText d.payload.key d.payload.query = text := by
    rw [Store.cached_query] at h
    split at h
    · rename_i heq
      rw [Prod.mk.injEq] at heq
      exact .inr ⟨(Option.some.inj h).symm, heq.1.symm, heq.2.symm⟩
    · exact .inl h
  by_cases hs : d.payload.subscribe = some true
  · refine ⟨(s.store.query d.action.name (keyText d.payload.key d.payload.query) value).subscribe
      (subscription d.action d.payload).text, ?_, ?_, ?_⟩
    · simp [State.finish, hs, Store.getter, Store.cached_subscribe, Store.cached_query]
    · intro name text v hv
      exact hquery name text v (Store.cached_subscribe _ _ _ _ ▸ hv)
    · intro text ht
      exact (Store.mem_subscribe ht).imp_right fun h => ⟨hs, h⟩
  · refine ⟨s.store.query d.action.name (keyText d.payload.key d.payload.query) value, ?_, hquery,
      fun text ht => .inl ht⟩
    simp [State.finish, hs, Store.getter, Store.cached_query]

theorem Consistent.answer (h : Consistent m es s) {i : ℕ} {d : Dispatched} {value : Option Props}
    (hd : s.promises[i]? = some d) (hpending : d.status = .pending value) (data : Obj) :
    Consistent m (es ++ [.answer i (d.action.request d.payload value) data])
      (s.answer i d value data) := by
  have hother : ∀ j, j ≠ i →
      (Event.answer i (d.action.request d.payload value) data).answerTo j = none := fun j hj =>
    if_neg hj.symm
  have hargs := h.args hd hpending
  rw [State.answer]
  cases hr : State.received value data with
  | none => exact h.settle hd hpending trivial hother (fun _ _ _ => .inl) (fun _ => .inl)
  | some v =>
    have hx := h.received hd hpending hr
    simp only
    cases hn : d.action.next d.payload v with
    | some k =>
      have hnext : (d.action.next d.payload v).isSome := by rw [hn]; rfl
      exact h.settle hd hpending ⟨hx, hnext, hargs⟩ hother (fun _ _ _ => .inl) (fun _ => .inl)
    | none =>
      obtain ⟨store, hfinish, hcached, hsub⟩ := finish_eq s i d v
      rw [hfinish]
      refine h.settle hd hpending ⟨hx, hn⟩ hother (fun name text w hw => ?_) hsub
      exact (hcached name text w hw).imp_right fun ⟨hv, hrest⟩ => ⟨by rw [hv], hrest⟩

/-! ## blocks -/

/-- a promise that repeats a subscribed dispatch -/
def Repeats (es : List Event) (text : String) (d : Dispatched) : Prop :=
  ∃ a p, Event.dispatch a p ∈ es ∧ p.subscribe = some true ∧ text = (subscription a p).text ∧
    d = ⟨a, p.again, .pending none⟩

theorem updateStep_eq (h : Consistent m es s) {text : String} (ht : text ∈ s.store.subscriptions.1)
    (u : State) : ∃ a p, State.updateStep m u text = u.dispatch a p ∧ a ∈ m.actions ∧
      p.subscribe ≠ some true ∧ ∃ d, (u.dispatch a p).promises = u.promises ++ [d] ∧
        Repeats es text d := by
  obtain ⟨a, p, hmem, ha, hs, hargs, rfl⟩ := h.subscribed text ht
  refine ⟨a, p.again, by rw [State.updateStep, ofText_subscription ha], ha, by simp [Payload.again,
    Payload.subscribe], ⟨a, p.again, .pending none⟩, ?_, a, p, hmem, hs, rfl, rfl⟩
  have hagain : (a.args p.again.key).isSome := hargs
  rw [State.dispatch, if_pos hagain]

theorem Consistent.updates (h : Consistent m es s) (texts : List String) :
    ∀ u, Consistent m es u → u.store = s.store → (∀ t ∈ texts, t ∈ s.store.subscriptions.1) →
      Consistent m es (texts.foldl (State.updateStep m) u) ∧
        (texts.foldl (State.updateStep m) u).store = s.store ∧
        ∃ new, (texts.foldl (State.updateStep m) u).promises = u.promises ++ new ∧
          List.Forall₂ (Repeats es) texts new := by
  induction texts with
  | nil => exact fun u hu hstore _ => ⟨hu, hstore, [], by simp, .nil⟩
  | cons t texts ih =>
    intro u hu hstore htexts
    obtain ⟨a, p, hstep, ha, hs, d, hd, hrepeats⟩ := updateStep_eq h (htexts t (by simp)) u
    have hu' : Consistent m es (u.dispatch a p) := hu.dispatch ha fun hsub => absurd hsub hs
    obtain ⟨hlast, hlaststore, new, hnew, hall⟩ := ih (u.dispatch a p) hu' hstore
      fun t' ht' => htexts t' (List.mem_cons_of_mem _ ht')
    rw [List.foldl_cons, hstep]
    refine ⟨hlast, hlaststore, d :: new, ?_, .cons hrepeats hall⟩
    rw [hnew, hd, List.append_assoc, List.singleton_append]

theorem Consistent.storeUpdate (h : Consistent m es s) :
    Consistent m es (s.storeUpdate m) ∧ (s.storeUpdate m).store = s.store ∧
      ∃ new, (s.storeUpdate m).promises = s.promises ++ new ∧
        List.Forall₂ (Repeats es) s.store.subscriptions.1 new :=
  h.updates s.store.subscriptions.1 s h rfl fun _ ht => ht

/-! ## runs -/

theorem Consistent.step (h : Consistent m es s) {t : State} (hstep : Step m s e t) :
    Consistent m (es ++ [e]) t := by
  cases hstep with
  | dispatch a p ha =>
    refine (h.event fun _ => rfl).dispatch ha fun _ => ?_
    exact List.mem_append_right _ (List.mem_singleton_self _)
  | answer data hd hpending => exact h.answer hd hpending data
  | fail message hd hpending =>
    exact h.settle hd hpending trivial (fun _ _ => rfl) (fun _ _ _ => .inl) (fun _ => .inl)
  | newblock => exact h.storeUpdate.1.event fun _ => rfl
  | resetState =>
    refine { h.event fun _ => rfl with cached := ?_, subscribed := ?_ }
    · exact fun name text v hv => by simp [Store.default, Store.cached, Table.get, Table.empty] at hv
    · exact fun text ht => by simp [Store.default] at ht
  | unsubscribe j =>
    exact { h.event fun _ => rfl with
      subscribed := fun text ht => (h.event fun _ => rfl).subscribed text (List.mem_of_mem_erase ht) }

theorem run_consistent (hrun : Run m es s) : Consistent m es s := by
  induction hrun with
  | nil => exact Consistent.init
  | snoc _ hstep ih => exact ih.step hstep

/-- whatever the order of dispatches, answers, failures and blocks: a promise resolves to the pages
that answered its own requests, all of them, and so does what is cached for parameters and a query -/
theorem cached_complete (hrun : Run m es s) :
    (∀ i a p value, s.promises[i]? = some ⟨a, p, .resolved value⟩ →
      Fetched a p (exchange i es) value) ∧
    ∀ name key query value, s.store.cached name (keyText key query) = some value →
      ∃ i a p, s.promises[i]? = some ⟨a, p, .resolved value⟩ ∧ a ∈ m.actions ∧ a.name = name ∧
        p.key = key ∧ p.query = query ∧ Fetched a p (exchange i es) value := by
  have h := run_consistent hrun
  have hresolved : ∀ i a p value, s.promises[i]? = some ⟨a, p, .resolved value⟩ →
      Fetched a p (exchange i es) value := fun i a p value hi => h.progress i _ hi
  refine ⟨hresolved, fun name key query value hv => ?_⟩
  obtain ⟨i, ⟨a, p, status⟩, hi, rfl, hname, htext⟩ := h.cached name _ value hv
  obtain ⟨hkey, hquery⟩ := keyText_inj htext
  exact ⟨i, a, p, hi, h.action i _ hi, hname, hkey, hquery, hresolved i a p value hi⟩

end

/-! ## a list in two pages -/

def validators : Action := ⟨"Validators", [], true⟩

def stakingModule : VuexModule := ⟨[validators], List.nodup_singleton _⟩

def allValidators : Payload := ⟨some ⟨some true, some true⟩, none, none⟩

def validatorPage (ops : List String) (next : Json) (h : next.Canonical) : Obj where
  props := [("validators", .arr (ops.map .str)), ("pagination", .obj [("next_key", next)])]
  canonical := by
    have hops : (Json.arr (ops.map .str)).Canonical :=
      Json.canonical_arr (by simp [Json.Canonical, Json.normal])
    have hpagination : (Json.obj [("next_key", next)]).Canonical :=
      Json.canonical_obj (List.pairwise_singleton _ _) (by simpa using h)
    refine Json.canonical_obj (by simp [Props.Ordered]; decide) ?_
    simp only [List.mem_cons, List.not_mem_nil, or_false, forall_eq_or_imp, forall_eq]
    exact ⟨hops, hpagination⟩

def firstPage : Obj := validatorPage ["a", "b"] (.str "AQ==") rfl
def lastPage : Obj := validatorPage ["c"] .null rfl

/-- the two pages as one -/
def bothPages : Props :=
  [("validators", .arr [.str "a", .str "b", .str "c"]), ("pagination", .obj [("next_key", .null)])]

def twoPages : List Event :=
  [.dispatch validators allValidators,
    .answer 0 (validators.request allValidators none) firstPage,
    .answer 0 (validators.request allValidators (some firstPage.props)) lastPage]

theorem first_more : validators.next allValidators firstPage.props = some (.str "AQ==") := by
  simp [Action.next, validators, allValidators, Payload.all, nextKey, firstPage, validatorPage,
    Props.get, truthy, member]

theorem pages_merge : mergeResults firstPage.props lastPage = some bothPages := by
  have hbefore : Props.comesBefore "pagination" "validators" = false := by decide
  simp [hbefore, mergeResults, firstPage, lastPage, validatorPage, mergeProp, Props.get, Props.set,
    spread, bothPages]

theorem both_done : validators.next allValidators bothPages = none := by
  simp [Action.next, validators, allValidators, Payload.all, nextKey, bothPages, Props.get, truthy,
    member]

theorem run_twoPages : ∃ s, Run stakingModule twoPages s ∧
    s.promises[0]? = some ⟨validators, allValidators, .resolved bothPages⟩ ∧
    s.store.cached "Validators" (keyText Obj.empty none) = some bothPages ∧
    s.store.subscriptions.1 = [(subscription validators allValidators).text] := by
  have h0 : Run stakingModule [.dispatch validators allValidators]
      ⟨Store.default, [⟨validators, allValidators, .pending none⟩]⟩ :=
    .snoc .nil (.dispatch validators allValidators (List.mem_singleton_self _))
  have h1 := h0.snoc (@Step.answer _ _ 0 _ none firstPage rfl rfl)
  have hs1 : State.answer ⟨Store.default, [⟨validators, allValidators, .pending none⟩]⟩ 0
      ⟨validators, allValidators, .pending none⟩ none firstPage =
        ⟨Store.default, [⟨validators, allValidators, .pending (some firstPage.props)⟩]⟩ := by
    simp [State.answer, State.received, first_more, State.settle]
  rw [hs1] at h1
  have h2 := h1.snoc (@Step.answer _ _ 0 _ (some firstPage.props) lastPage rfl rfl)
  have hsubscribe : allValidators.subscribe = some true := rfl
  have hkey : allValidators.key = Obj.empty := rfl
  have hquery : allValidators.query = none := rfl
  refine ⟨_, h2, ?_⟩
  have hcached (subs : Subscriptions) : Store.cached ⟨Table.empty.put ((validators.name,
      keyText Obj.empty none), bothPages), subs⟩ validators.name (keyText Obj.empty none) =
        some bothPages := by simp [Store.cached]
  simp only [State.answer, State.received, pages_merge, both_done, State.finish, hsubscribe, hkey,
    hquery, if_true, Store.getter, Store.cached_subscribe, Store.cached_query, Option.getD_some]
  refine ⟨rfl, ?_, ?_⟩
  · rw [State.settle, Store.cached_subscribe]
    exact hcached _
  · simp [State.settle, Store.subscribe, Store.query, Store.default]


theorem cached_complete_two : ∃ s, Run stakingModule twoPages s ∧
    ∃ i a p, s.promises[i]? = some ⟨a, p, .resolved bothPages⟩ ∧ a ∈ stakingModule.actions ∧
      a.name = "Validators" ∧ p.key = Obj.empty ∧ p.query = none ∧
      Fetched a p (exchange i twoPages) bothPages := by
  obtain ⟨s, hrun, -, hcached, -⟩ := run_twoPages
  exact ⟨s, hrun, (cached_complete hrun).2 "Validators" Obj.empty none bothPages hcached⟩

section
variable {m : VuexModule} {es : List Event} {s : State}

/-- a block leaves the store alone and repeats each subscribed dispatch of the application once, with
the same requests, and without a new subscription -/
theorem store_update (hrun : Run m es s) {t : State} (hstep : Step m s .newblock t) :
    t.store = s.store ∧ ∃ new, t.promises = s.promises ++ new ∧
      List.Forall₂ (fun text d => ∃ a p, Event.dispatch a p ∈ es ∧ p.subscribe = some true ∧
        text = (subscription a p).text ∧ d.action = a ∧ d.status = .pending none ∧
        d.payload.subscribe ≠ some true ∧ d.payload.key = p.key ∧ d.payload.query = p.query ∧
        ∀ log value, Fetched a d.payload log value ↔ Fetched a p log value)
        s.store.subscriptions.1 new := by
  cases hstep
  obtain ⟨-, hstore, new, hnew, hall⟩ := (run_consistent hrun).storeUpdate
  refine ⟨hstore, new, hnew, hall.imp ?_⟩
  rintro text d ⟨a, p, hmem, hs, htext, rfl⟩
  exact ⟨a, p, hmem, hs, htext, rfl, rfl, by simp [Payload.again, Payload.subscribe], rfl, rfl,
    fun _ _ => again_fetched⟩

end

/-! ## two subscriptions -/

def delegations : Action := ⟨"ValidatorDelegations", [["validator_addr"]], true⟩

def bothLists : VuexModule := ⟨[validators, delegations], by decide⟩

def single (name : String) (v : Json) (h : v.Canonical) : Obj where
  props := [(name, v)]
  canonical := Json.canonical_obj (List.pairwise_singleton _ _) (by simpa using h)

/-- the bonded validators, on a subscription -/
def bonded : Payload := ⟨some ⟨some true, none⟩, none, some (single "status" (.str "bonded") rfl)⟩

/-- the delegations to one validator, on a subscription -/
def ofValidator : Payload :=
  ⟨some ⟨some true, none⟩, some (single "validator_addr" (.str "a") rfl), none⟩

def noDelegations : Obj := single "delegation_responses" (.arr []) rfl

def twoLists : List Event :=
  [.dispatch validators bonded, .dispatch delegations ofValidator,
    .answer 1 (delegations.request ofValidator none) noDelegations,
    .answer 0 (validators.request bonded none) lastPage]

theorem subscriptions_differ :
    (subscription delegations ofValidator).text ≠ (subscription validators bonded).text := by
  intro h
  have hd := ofText_subscription (show delegations ∈ bothLists.actions by decide) ofValidator
  have hv := ofText_subscription (show validators ∈ bothLists.actions by decide) bonded
  rw [h, hv, Option.some.injEq, Prod.mk.injEq] at hd
  exact absurd hd.1 (by decide)

/-- a dispatch without `all` ends with its first answer -/
theorem answer_single {s : State} {i : ℕ} {d : Dispatched} (data : Obj)
    (hall : d.payload.all ≠ some true) :
    s.answer i d none data = s.finish i d data.props := by
  have hnext : d.action.next d.payload data.props = none := by simp [Action.next, hall]
  simp [State.answer, State.received, hnext]

/-- the promise aside, a subscribed dispatch ends with both commits -/
theorem finish_store {s : State} {i : ℕ} {d : Dispatched} {value : Props}
    (hs : d.payload.subscribe = some true) : (s.finish i d value).store =
      (s.store.query d.action.name (keyText d.payload.key d.payload.query) value).subscribe
        (subscription d.action d.payload).text := by
  rw [State.finish, if_pos hs, State.settle]

theorem Store.subscriptions_subscribe {s : Store} {text : String} (h : text ∉ s.subscriptions.1) :
    (s.subscribe text).subscriptions.1 = s.subscriptions.1 ++ [text] := by
  rw [subscribe, dif_neg h]

theorem run_twoLists : ∃ s, Run bothLists twoLists s ∧ s.store.subscriptions.1 =
    [(subscription delegations ofValidator).text, (subscription validators bonded).text] := by
  have h0 : Run bothLists [.dispatch validators bonded, .dispatch delegations ofValidator]
      ⟨Store.default, [⟨validators, bonded, .pending none⟩,
        ⟨delegations, ofValidator, .pending none⟩]⟩ :=
    (Run.snoc .nil (.dispatch validators bonded (by decide))).snoc
      (.dispatch delegations ofValidator (by decide))
  have h1 := h0.snoc (@Step.answer _ _ 1 _ none noDelegations rfl rfl)
  rw [answer_single _ (by decide)] at h1
  have h2 := h1.snoc (@Step.answer _ _ 0 ⟨validators, bonded, .pending none⟩ none lastPage rfl rfl)
  rw [answer_single _ (by decide)] at h2
  refine ⟨_, h2, ?_⟩
  have hfirst : (Store.subscribe (Store.query Store.default delegations.name
      (keyText ofValidator.key ofValidator.query) noDelegations.props)
        (subscription delegations ofValidator).text).subscriptions.1 =
          [(subscription delegations ofValidator).text] :=
    Store.subscriptions_subscribe List.not_mem_nil
  rw [finish_store rfl, Store.subscriptions_subscribe]
  · rw [Store.query, finish_store rfl, hfirst, List.singleton_append]
  · rw [Store.query, finish_store rfl, hfirst, List.mem_singleton]
    exact subscriptions_differ.symm

theorem store_update_two : ∃ s t d e, Run bothLists twoLists s ∧ Step bothLists s .newblock t ∧
    t.store = s.store ∧ t.promises = s.promises ++ [d, e] ∧
    d.action = delegations ∧ d.payload.key = ofValidator.key ∧ d.status = .pending none ∧
    e.action = validators ∧ e.payload.query = bonded.query ∧ e.status = .pending none := by
  obtain ⟨s, hrun, hsub⟩ := run_twoLists
  obtain ⟨hstore, new, hnew, hall⟩ := store_update hrun .newblock
  rw [hsub] at hall
  have hasked {a : Action} {p : Payload} (h : Event.dispatch a p ∈ twoLists) :
      a = validators ∧ p = bonded ∨ a = delegations ∧ p = ofValidator := by
    simpa [twoLists] using h
  cases hall with
  | cons hfirst hrest =>
    cases hrest with
    | cons hsecond hnil =>
      cases hnil
      obtain ⟨a, p, hmem, -, htext, ha, hstatus, -, hkey, -⟩ := hfirst
      obtain ⟨b, q, hmem', -, htext', hb, hstatus', -, -, hquery, -⟩ := hsecond
      rcases hasked hmem with ⟨rfl, rfl⟩ | ⟨rfl, rfl⟩
      · exact absurd htext subscriptions_differ
      rcases hasked hmem' with ⟨rfl, rfl⟩ | ⟨rfl, rfl⟩
      · exact ⟨s, _, _, _, hrun, .newblock, hstore, hnew, ha, hkey, hstatus, hb, hquery, hstatus'⟩
      · exact absurd htext'.symm subscriptions_differ

end MeChain.Vuex
