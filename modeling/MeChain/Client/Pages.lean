import MeChain.Client.StoreRuns

/-!
# Lists that come in pages

* `mergeResults_get`       what merging a page does to each property;
* `Listing`                a server that gives a list in pages of any sizes;
* `all_pages_collected`    with `all`, a dispatch gets the whole list, with one request a page.
-/

namespace MeChain.Vuex

open Json (Obj Props)

/-! ## merging one page -/

/-- a property after a page has been merged -/
def mergedProp (old : Option Json) : Option Json → Option Json
  | some (.arr next) => (spread old).map fun l => .arr (l ++ next)
  | some v => some v
  | none => old

theorem mergeProp_get_ne {value v : Props} {p : String × Json} (h : mergeProp value p = some v)
    {k : String} (hk : p.1 ≠ k) : v.get k = value.get k := by
  obtain ⟨name, x⟩ := p
  cases x with
  | arr next =>
    obtain ⟨l, -, rfl⟩ := Option.map_eq_some_iff.mp h
    exact Props.get_set_of_ne _ hk _
  | null | bool | num | str | obj =>
    cases h
    exact Props.get_set_of_ne _ hk _

theorem mergeProp_get_self {value v : Props} {p : String × Json} (h : mergeProp value p = some v) :
    v.get p.1 = mergedProp (value.get p.1) (some p.2) := by
  obtain ⟨name, x⟩ := p
  cases x with
  | arr next =>
    obtain ⟨l, hl, rfl⟩ := Option.map_eq_some_iff.mp h
    rw [Props.get_set_self, mergedProp, hl, Option.map_some]
  | null | bool | num | str | obj =>
    cases h
    exact Props.get_set_self _ _ _

theorem foldlM_mergeProp_get {l : Props} (hl : l.Ordered) {value v : Props}
    (h : l.foldlM mergeProp value = some v) (k : String) :
    v.get k = mergedProp (value.get k) (l.get k) := by
  induction l generalizing value with
  | nil =>
    cases h
    rfl
  | cons p l ih =>
    obtain ⟨hp, hl⟩ := List.pairwise_cons.mp hl
    rw [List.foldlM_cons] at h
    obtain ⟨w, hw, hrest⟩ := Option.bind_eq_some_iff.mp h
    rw [ih hl hrest]
    by_cases hk : p.1 = k
    · subst hk
      have hnone : Props.get l p.1 = none := Props.get_eq_none fun q hq => (hp q hq).1.symm
      rw [hnone, mergeProp_get_self hw, Props.get, if_pos rfl]
      rfl
    · rw [mergeProp_get_ne hw hk, Props.get, if_neg hk]

theorem mergeResults_get {value v : Props} {next : Obj} (h : mergeResults value next = some v)
    (k : String) : v.get k = mergedProp (value.get k) (next.get k) :=
  foldlM_mergeProp_get next.ordered h k

/-- merging fails only where an array has nothing to be added to -/
theorem foldlM_mergeProp_isSome {l : Props} (hl : l.Ordered) {value : Props}
    (h : ∀ k next, l.get k = some (.arr next) → (spread (value.get k)).isSome) :
    (l.foldlM mergeProp value).isSome := by
  induction l generalizing value with
  | nil => rfl
  | cons p l ih =>
    obtain ⟨hp, hl⟩ := List.pairwise_cons.mp hl
    have hfirst : (mergeProp value p).isSome := by
      obtain ⟨name, x⟩ := p
      cases x with
      | arr next =>
        have hs := h name next (by rw [Props.get, if_pos rfl])
        rw [mergeProp, Option.isSome_map]
        exact hs
      | null | bool | num | str | obj => rfl
    obtain ⟨w, hw⟩ := Option.isSome_iff_exists.mp hfirst
    rw [List.foldlM_cons, hw]
    refine ih hl fun k next hk => ?_
    have hne : p.1 ≠ k := by
      rintro rfl
      rw [Props.get_eq_none fun q hq => (hp q hq).1.symm] at hk
      exact absurd hk (by simp)
    rw [mergeProp_get_ne hw hne]
    exact h k next (by rw [Props.get, if_neg hne]; exact hk)

/-! ## a list in pages -/

/-- a page of the list `name`, and the key of the page after it -/
structure IsPage (name : String) (chunk : List Json) (next : Option Json) (data : Obj) : Prop where
  list : data.get name = some (.arr chunk)
  only : ∀ k l, data.get k = some (.arr l) → k = name
  pagination : data.get "pagination" ≠ none
  next : nextKey data.props = next

/-- the server answers a request with a page, and the page's key with the pages after it -/
inductive Listing (server : Request → Obj) (a : Action) (p : Payload) (name : String) :
    Request → List (List Json) → Prop
  | last {r chunk} : IsPage name chunk none (server r) → Listing server a p name r [chunk]
  | page {r chunk k chunks} : IsPage name chunk (some k) (server r) →
      Listing server a p name (a.requestAt p (some k)) chunks →
      Listing server a p name r (chunk :: chunks)

/-- the pages before `rest` are there -/
def Collected (server : Request → Obj) (a : Action) (p : Payload) (name : String)
    (done rest : List (List Json)) (value : Props) : Prop :=
  value.get name = some (.arr done.flatten) ∧
    match rest with
    | [] => nextKey value = none
    | rest => ∃ k, nextKey value = some k ∧ Listing server a p name (a.requestAt p (some k)) rest

section
variable {server : Request → Obj} {a : Action} {p : Payload} {name : String}

theorem merge_page (hname : name ≠ "pagination") {value : Props} {l chunk : List Json}
    {next : Option Json} {data : Obj} (hvalue : value.get name = some (.arr l))
    (hpage : IsPage name chunk next data) :
    ∃ v, mergeResults value data = some v ∧ v.get name = some (.arr (l ++ chunk)) ∧
      nextKey v = next := by
  have hspread : ∀ k next, data.props.get k = some (.arr next) → (spread (value.get k)).isSome := by
    intro k next hk
    rw [hpage.only k next hk, hvalue]
    rfl
  obtain ⟨v, hv⟩ := Option.isSome_iff_exists.mp (foldlM_mergeProp_isSome data.ordered hspread)
  refine ⟨v, hv, ?_, ?_⟩
  · rw [mergeResults_get hv, hpage.list, hvalue]
    rfl
  · have hsame : v.get "pagination" = data.props.get "pagination" := by
      rw [mergeResults_get hv]
      cases hp : data.get "pagination" with
      | none => exact absurd hp hpage.pagination
      | some x =>
        cases x with
        | arr next => exact absurd (hpage.only _ _ hp).symm hname
        | null | bool | num | str | obj => exact hp.symm
    rw [← hpage.next, nextKey, nextKey, hsame]

theorem Listing.collected {r : Request} {chunks : List (List Json)}
    (h : Listing server a p name r chunks) :
    ∃ chunk rest next, chunks = chunk :: rest ∧ IsPage name chunk next (server r) ∧
      (rest = [] → next = none) ∧
      (rest ≠ [] → ∃ k, next = some k ∧ Listing server a p name (a.requestAt p (some k)) rest) := by
  cases h with
  | last hpage => exact ⟨_, [], none, rfl, hpage, fun _ => rfl, fun h => absurd rfl h⟩
  | page hpage hrest =>
    refine ⟨_, _, _, rfl, hpage, fun h => ?_, fun _ => ⟨_, rfl, hrest⟩⟩
    subst h
    cases hrest

/-- the value holds the pages before `rest`, and knows where `rest` starts -/
theorem collected_of_page {value : Props} {done rest : List (List Json)} {next : Option Json}
    (hvalue : value.get name = some (.arr done.flatten)) (hnext : nextKey value = next)
    (hnil : rest = [] → next = none)
    (hrest : rest ≠ [] → ∃ k, next = some k ∧ Listing server a p name (a.requestAt p (some k)) rest) :
    Collected server a p name done rest value := by
  refine ⟨hvalue, ?_⟩
  cases rest with
  | nil => exact hnext.trans (hnil rfl)
  | cons chunk rest =>
    obtain ⟨k, hk, hlist⟩ := hrest (by simp)
    exact ⟨k, hnext.trans hk, hlist⟩

section
variable (hpaged : a.paged = true) (hall : p.all = some true)
include hpaged hall

theorem next_eq (value : Props) : a.next p value = nextKey value := by
  rw [Action.next, if_pos ⟨hpaged, hall⟩]

theorem exchange_collects (hname : name ≠ "pagination") {chunks : List (List Json)}
    (hlist : Listing server a p name (a.requestAt p none) chunks) {log : List (Request × Obj)}
    {value : Props} (h : Exchange a p log value) (hserver : ∀ x ∈ log, x.2 = server x.1) :
    ∃ done rest, chunks = done ++ rest ∧ log.length = done.length ∧
      Collected server a p name done rest value := by
  induction h with
  | first data =>
    have hdata : data = server (a.requestAt p none) := hserver (a.request p none, data) (by simp)
    obtain ⟨chunk, rest, next, rfl, hpage, hnil, hrest⟩ := hlist.collected
    rw [← hdata] at hpage
    have hvalue : data.props.get name = some (.arr [chunk].flatten) := by
      rw [List.flatten_singleton]
      exact hpage.list
    exact ⟨[chunk], rest, rfl, rfl, collected_of_page hvalue hpage.next hnil hrest⟩
  | @next log value value' data _ hnext hmerge ih =>
    obtain ⟨done, rest, rfl, hlen, hvalue, hmore⟩ := ih fun x hx => hserver x (List.mem_append_left _ hx)
    rw [next_eq hpaged hall] at hnext
    cases rest with
    | nil => rw [show nextKey value = none from hmore] at hnext; exact absurd hnext (by simp)
    | cons chunk rest =>
      obtain ⟨k, hk, hlist⟩ := hmore
      have hrequest : a.request p (some value) = a.requestAt p (some k) := by
        rw [Action.request, Option.bind_some, next_eq hpaged hall, hk]
      have hdata : data = server (a.requestAt p (some k)) := 
        hrequest ▸ hserver (a.request p (some value), data) (by simp)
      obtain ⟨chunk', rest', next, heq, hpage, hnil, hrest⟩ := hlist.collected
      obtain ⟨rfl, rfl⟩ := List.cons.inj heq
      rw [← hdata] at hpage
      obtain ⟨v, hv, hlistv, hnextv⟩ := merge_page hname hvalue hpage
      obtain rfl : v = value' := Option.some.inj (hv.symm.trans hmerge)
      refine ⟨done ++ [chunk], rest, by simp, by simp [hlen], ?_⟩
      exact collected_of_page (by simpa using hlistv) hnextv hnil hrest

/-- with `all`, whatever else goes on: as long as pages are missing a dispatch waits for the next one,
which does not fail; it resolves to the whole list, after one request a page -/
theorem all_pages_collected {m : VuexModule} {es : List Event} {s : State} (hrun : Run m es s)
    {i : ℕ} {status : Status} (hi : s.promises[i]? = some ⟨a, p, status⟩)
    (hname : name ≠ "pagination") {chunks : List (List Json)}
    (hlist : Listing server a p name (a.requestAt p none) chunks)
    (hserver : ∀ x ∈ exchange i es, x.2 = server x.1) :
    (∀ value, status = .pending value → (exchange i es).length < chunks.length ∧
      (State.received value (server (a.request p value))).isSome) ∧
    ∀ value, status = .resolved value → (exchange i es).length = chunks.length ∧
      value.get name = some (.arr chunks.flatten) := by
  have hprogress := (run_consistent hrun).progress i _ hi
  constructor
  · rintro (_ | value) rfl
    · obtain ⟨chunk, rest, -, rfl, -⟩ := hlist.collected
      rw [show exchange i es = [] from hprogress.1]
      exact ⟨by simp, rfl⟩
    · obtain ⟨hx, hnext, -⟩ := hprogress
      obtain ⟨done, rest, rfl, hlen, hvalue, hmore⟩ :=
        exchange_collects hpaged hall hname hlist hx hserver
      have hnext : (a.next p value).isSome := hnext
      rw [next_eq hpaged hall] at hnext
      cases rest with
      | nil => rw [show nextKey value = none from hmore] at hnext; exact absurd hnext (by simp)
      | cons chunk rest =>
        obtain ⟨k, hk, hlist⟩ := hmore
        obtain ⟨chunk', rest', next, -, hpage, -⟩ := hlist.collected
        obtain ⟨v, hv, -⟩ := merge_page hname hvalue hpage
        refine ⟨by simp [hlen], ?_⟩
        rw [Action.request, Option.bind_some, next_eq hpaged hall, hk, State.received, hv]
        rfl
  · rintro value rfl
    obtain ⟨hx, hnext⟩ := hprogress
    obtain ⟨done, rest, rfl, hlen, hvalue, hmore⟩ :=
      exchange_collects hpaged hall hname hlist hx hserver
    have hnext : a.next p value = none := hnext
    rw [next_eq hpaged hall] at hnext
    cases rest with
    | nil => exact ⟨by simp [hlen], by simpa using hvalue⟩
    | cons chunk rest =>
      obtain ⟨k, hk, -⟩ := hmore
      rw [hk] at hnext
      exact absurd hnext (by simp)

end

end

theorem validatorPage_isPage (ops : List String) {next : Json} (h : next.Canonical) :
    IsPage "validators" (ops.map .str) (nextKey (validatorPage ops next h).props)
      (validatorPage ops next h) where
  list := by simp [Obj.get, validatorPage, Props.get]
  only k l hk := by
    by_contra hne
    simp only [Obj.get, validatorPage, Props.get, if_neg (Ne.symm hne)] at hk
    split at hk <;> simp at hk
  pagination := by simp [Obj.get, validatorPage, Props.get]
  next := rfl

def twoPageServer (r : Request) : Obj :=
  match r.query with
  | none => firstPage
  | some _ => lastPage

theorem all_pages_collected_two : ∃ s, Run stakingModule twoPages s ∧
    (exchange 0 twoPages).length = 2 ∧
    Props.get bothPages "validators" = some (.arr [.str "a", .str "b", .str "c"]) := by
  obtain ⟨s, hrun, hresolved, -⟩ := run_twoPages
  have hfirst : nextKey firstPage.props = some (.str "AQ==") := by
    simp [nextKey, firstPage, validatorPage, Props.get, truthy, member]
  have hlast : nextKey lastPage.props = none := by
    simp [nextKey, lastPage, validatorPage, Props.get, truthy, member]
  have hlist : Listing twoPageServer validators allValidators "validators"
      (validators.requestAt allValidators none) [[.str "a", .str "b"], [.str "c"]] :=
    .page (hfirst ▸ validatorPage_isPage ["a", "b"] _) (.last (hlast ▸ validatorPage_isPage ["c"] _))
  have hsecond : (validators.request allValidators (some firstPage.props)).query =
      some (Obj.empty.props.set "pagination.key" (.str "AQ==")) := by
    rw [Action.request, Option.bind_some, first_more]
    rfl
  have hserver : ∀ x ∈ exchange 0 twoPages, x.2 = twoPageServer x.1 := by
    intro x hx
    obtain rfl | rfl : x = (validators.request allValidators none, firstPage) ∨
        x = (validators.request allValidators (some firstPage.props), lastPage) := by
      simpa [exchange, twoPages, Event.answerTo, eq_comm] using hx
    · rfl
    · rw [twoPageServer, hsecond]
  exact ⟨s, hrun, (all_pages_collected rfl rfl hrun hresolved (by decide) hlist hserver).2 _ rfl⟩

end MeChain.Vuex
