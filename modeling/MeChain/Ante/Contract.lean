import MeChain.Ante.Exempt

/-!
# Whose contract a transaction is attributed to

`ParseWasmMsgContractOwner` keeps the contract of the last message only, and reads the creator of
the contract it finds without asking whether there is one.

* `target`               what a contract address leads to: nothing well formed, no contract, or one
                         with a creator;
* `wasmLoop_eq`          the loop: are all messages about contracts, and which is the last;
* `parse_eq`             the answer, from the target of the last message;
* `returnsOnContract_iff`  the decorator returns unless the last message misses its contract;
* `attribution_iff`      the answer is about every message exactly when all targets are alike.
-/

set_option linter.unusedSectionVars false

namespace MeChain
open Fallible

variable {Addr G : Type} [SdkAddress Addr] [DecidableEq Addr]

/-! ## targets -/

/-- what a contract address of a message leads to -/
inductive Target where
  | malformed
  | missing
  | owned (creator : String)
deriving DecidableEq, Repr

def ViewKeeper.target (wk : ViewKeeper Addr) (s : App Addr) (contract : String) : Target :=
  match (accAddressFromBech32 contract : Except Error Addr) with
  | .error _ => .malformed
  | .ok addr =>
    match wk.getContractInfo s addr with
    | none => .missing
    | some info => .owned info.creator

/-- what the decorator makes of a target: the creator of no contract is a nil dereference -/
def Target.answer : Target → Res (String × Bool)
  | .malformed => .ok ("", false)
  | .missing => goPanic "invalid memory address or nil pointer dereference"
  | .owned creator => .ok (creator, true)

theorem Target.answer_inj {t u : Target} (h : t.answer = u.answer) : t = u := by
  cases t with
  | malformed => cases u <;> simp_all [answer, goPanic]
  | missing => cases u <;> simp_all [answer, goPanic]
  | owned creator => cases u <;> simp_all [answer, goPanic]

theorem Target.answer_owned {t : Target} {owner : String} (h : t.answer = .ok (owner, true)) :
    t = .owned owner :=
  answer_inj h

/-! ## the loop over the messages -/

/-- every message is about a contract -/
def OnlyContracts (msgs : List Msg) : Prop := ∀ m ∈ msgs, m.contract ≠ none

instance (msgs : List Msg) : Decidable (OnlyContracts msgs) :=
  inferInstanceAs (Decidable (∀ m ∈ msgs, _))

/-- the contracts the messages are about, in order -/
def targets (msgs : List Msg) : List String := msgs.filterMap Msg.contract

/-- the contract of the last message that has one -/
def lastContract (msgs : List Msg) : String := (targets msgs).getLast?.getD ""

theorem loop_from {f : Bool × String → Msg → Bool × String}
    (hsome : ∀ r m c, m.contract = some c → f r m = (r.1, c))
    (hnone : ∀ r m, m.contract = none → f r m = (false, r.2)) (msgs : List Msg) (b : Bool)
    (c : String) : msgs.foldl f (b, c)
      = (b && msgs.all (fun m => m.contract.isSome), (targets msgs).getLast?.getD c) := by
  unfold targets
  induction msgs generalizing b c with
  | nil => simp
  | cons m msgs ih =>
    rw [List.foldl_cons, List.all_cons]
    cases hm : m.contract with
    | none =>
      rw [hnone _ _ hm, ih, List.filterMap_cons_none hm]
      simp
    | some c' =>
      rw [hsome _ _ _ hm, ih, List.filterMap_cons_some hm, List.getLast?_cons]
      simp

/-- **What the loop leaves**: whether all messages are about contracts, and the last contract. -/
theorem wasmLoop_eq (msgs : List Msg) :
    wasmLoop msgs = (decide (OnlyContracts msgs), lastContract msgs) := by
  have hall : msgs.all (fun m => m.contract.isSome) = decide (OnlyContracts msgs) := by
    rw [Bool.eq_iff_iff, List.all_eq_true, decide_eq_true_iff]
    exact forall₂_congr (fun m _ => Option.isSome_iff_ne_none)
  unfold wasmLoop
  rw [loop_from, Bool.true_and, hall]
  · rfl
  · intro r m c hm
    simp only [hm]
  · intro r m hm
    simp only [hm]

theorem mem_targets {msgs : List Msg} {c : String} :
    c ∈ targets msgs ↔ ∃ m ∈ msgs, m.contract = some c := List.mem_filterMap

theorem exists_perm_last {msgs : List Msg} {c : String} (h : c ∈ targets msgs) :
    ∃ msgs' : List Msg, msgs'.Perm msgs ∧ lastContract msgs' = c := by
  obtain ⟨m, hm, hc⟩ := mem_targets.mp h
  refine ⟨msgs.erase m ++ [m], ?_, ?_⟩
  · exact (List.perm_append_singleton m _).trans (List.perm_cons_erase hm).symm
  · rw [lastContract, targets, List.filterMap_append, List.filterMap_cons_some hc]
    simp

theorem lastContract_mem {msgs : List Msg} (hall : OnlyContracts msgs) (hne : msgs ≠ []) :
    lastContract msgs ∈ targets msgs := by
  have hnil : targets msgs ≠ [] := by
    cases msgs with
    | nil => exact absurd rfl hne
    | cons m msgs =>
      obtain ⟨c, hc⟩ := Option.ne_none_iff_exists'.mp (hall m (List.mem_cons_self ..))
      rw [targets, List.filterMap_cons_some hc]
      exact List.cons_ne_nil _ _
  rw [lastContract, List.getLast?_eq_some_getLast hnil]
  exact List.getLast_mem hnil

theorem onlyContracts_perm {msgs msgs' : List Msg} (h : msgs'.Perm msgs) :
    OnlyContracts msgs' ↔ OnlyContracts msgs :=
  forall_congr' (fun _ => by rw [h.mem_iff])

/-- all messages are about contracts, and the address of the last one is well formed -/
def LooksUp (Addr : Type) [SdkAddress Addr] (msgs : List Msg) : Prop :=
  OnlyContracts msgs ∧ ∃ addr : Addr, accAddressFromBech32 (lastContract msgs) = .ok addr

namespace DeductFeeDecorator

variable {dfd : DeductFeeDecorator Addr G} {wk : ViewKeeper Addr} {sk : StakingKeeper Addr}
  {s : App Addr} {tx : FeeTx Addr}

/-- **The answer**: that of the last message's target, if all messages are about contracts. -/
theorem parse_eq (hwk : dfd.wasmKeeper = some wk) (s : App Addr) (tx : Tx Addr) :
    dfd.parseWasmMsgContractOwner s tx
      = if OnlyContracts tx.getMsgs then (wk.target s (lastContract tx.getMsgs)).answer
        else .ok ("", false) := by
  unfold parseWasmMsgContractOwner
  rw [wasmLoop_eq]
  by_cases hall : OnlyContracts tx.getMsgs
  · rw [if_pos hall, decide_eq_true hall, hwk]
    dsimp only
    unfold ViewKeeper.target
    cases haddr : (accAddressFromBech32 (lastContract tx.getMsgs) : Except Error Addr) with
    | error e => rfl
    | ok addr =>
      dsimp only [deref]
      rw [ok_bind]
      cases wk.getContractInfo s addr with
      | none => rfl
      | some info => rfl
  · rw [if_neg hall, decide_eq_false hall]

theorem parse_lookup {app : App Addr} {msgs : List Msg} {t : Tx Addr} {addr : Addr}
    (ht : t.getMsgs = msgs) (hall : OnlyContracts msgs)
    (haddr : accAddressFromBech32 (lastContract msgs) = .ok addr) :
    dfd.parseWasmMsgContractOwner app t = deref dfd.wasmKeeper >>= fun wk =>
      deref (wk.getContractInfo app addr) >>= fun info => .ok (info.creator, true) := by
  unfold parseWasmMsgContractOwner
  rw [ht, wasmLoop_eq, decide_eq_true hall]
  dsimp only
  rw [haddr]

/-- without a look-up nobody owns the contract -/
theorem parse_free {app : App Addr} {t : Tx Addr} (h : ¬ LooksUp Addr t.getMsgs) :
    dfd.parseWasmMsgContractOwner app t = .ok ("", false) := by
  unfold parseWasmMsgContractOwner
  rw [wasmLoop_eq]
  by_cases hall : OnlyContracts t.getMsgs
  · rw [decide_eq_true hall]
    dsimp only
    cases haddr : (accAddressFromBech32 (lastContract t.getMsgs) : Except Error Addr) with
    | error e => rfl
    | ok addr => exact absurd ⟨hall, addr, haddr⟩ h
  · rw [decide_eq_false hall]

theorem parse_contracts (hwk : dfd.wasmKeeper = some wk) (hall : OnlyContracts tx.msgs) :
    dfd.parseWasmMsgContractOwner s (.feeTx tx) = (wk.target s (lastContract tx.msgs)).answer := by
  rw [parse_eq hwk]
  exact if_pos hall

/-! ## returning -/

/-- The call returns, and with no contract under the address it looks up it returns `("", false)`,
so that the fourth share goes to the fee pool of the global admin. -/
structure ReturnsOnContract (dfd : DeductFeeDecorator Addr G) (wk : ViewKeeper Addr)
    (sk : StakingKeeper Addr) (s : App Addr) (tx : FeeTx Addr) : Prop where
  returns : ∃ r, dfd.parseWasmMsgContractOwner s (.feeTx tx) = .ok r
  noContract : (∀ creator, wk.target s (lastContract tx.msgs) ≠ .owned creator) →
    dfd.parseWasmMsgContractOwner s (.feeTx tx) = .ok ("", false) ∧
    dfd.fee40Address sk s (.feeTx tx) = .ok (SdkAddress.str (sk.getGlobalAdminFeePoolAddr s))

/-- **When the decorator returns on contract messages**: unless the address of the last message is
well formed and no contract lives there. -/
theorem returnsOnContract_iff (hwk : dfd.wasmKeeper = some wk) (hall : OnlyContracts tx.msgs) :
    ReturnsOnContract dfd wk sk s tx ↔ wk.target s (lastContract tx.msgs) ≠ .missing := by
  have hparse := parse_contracts (s := s) hwk hall
  constructor
  · rintro ⟨⟨r, hr⟩, _⟩ hmiss
    rw [hparse, hmiss] at hr
    cases hr
  · intro hne
    cases ht : wk.target s (lastContract tx.msgs) with
    | missing => exact absurd ht hne
    | malformed =>
      rw [ht] at hparse
      refine ⟨⟨_, hparse⟩, fun _ => ⟨hparse, ?_⟩⟩
      rw [fee40Address, hparse]
      rfl
    | owned creator =>
      rw [ht] at hparse
      exact ⟨⟨_, hparse⟩, fun hno => absurd ht (hno creator)⟩

/-- a chain with two contracts, of two creators -/
def contractKeeper (Addr : Type) [SdkAddress Addr] : ViewKeeper Addr :=
  ⟨fun _ addr =>
    if SdkAddress.str addr = "me1game" then some ⟨"me1bob"⟩
    else if SdkAddress.str addr = "me1shop" then some ⟨"me1carol"⟩
    else none⟩

def contractDecorator : DeductFeeDecorator String Unit :=
  { fixedDecorator with wasmKeeper := some (contractKeeper String) }

theorem returnsOnContract_game :
    ReturnsOnContract contractDecorator (contractKeeper String) fixedStaking aliceFunded.app
      (aliceTx [.executeContract "me1game"]) :=
  (returnsOnContract_iff rfl (by decide)).mpr (by decide)

/-- the ante handler panics on a message to an address without a contract -/
theorem fee_panics_missing_contract :
    isPanic (anteHandle parseHundred contractDecorator .first aliceFunded
      (.feeTx (aliceTx [.executeContract "me1nobody"])) false probe) = true ∧
    ¬ ReturnsOnContract contractDecorator (contractKeeper String) fixedStaking aliceFunded.app
      (aliceTx [.executeContract "me1nobody"]) := by
  refine ⟨by decide +kernel, fun h => ?_⟩
  have hmiss : (contractKeeper String).target aliceFunded.app "me1nobody" = .missing := by decide
  obtain ⟨r, hr⟩ := h.returns
  rw [parse_contracts rfl (by decide)] at hr
  change ((contractKeeper String).target aliceFunded.app "me1nobody").answer = .ok r at hr
  rw [hmiss] at hr
  cases hr

/-! ## attribution -/

/-- An owner that is reported owns the contract of every message, and there is a message; the answer
does not depend on the order of the messages. -/
structure Attributes (dfd : DeductFeeDecorator Addr G) (wk : ViewKeeper Addr) (s : App Addr)
    (tx : FeeTx Addr) : Prop where
  every : ∀ owner, dfd.parseWasmMsgContractOwner s (.feeTx tx) = .ok (owner, true) →
    tx.msgs ≠ [] ∧ ∀ m ∈ tx.msgs, ∃ c, m.contract = some c ∧ wk.target s c = .owned owner
  orderFree : ∀ msgs : List Msg, msgs.Perm tx.msgs →
    dfd.parseWasmMsgContractOwner s (.feeTx { tx with msgs := msgs })
      = dfd.parseWasmMsgContractOwner s (.feeTx tx)

/-- **When the attribution is about every message**: exactly when the messages of a transaction that
has contract messages only all lead to the same target. -/
theorem attribution_iff (hwk : dfd.wasmKeeper = some wk)
    (hempty : ∃ e, (accAddressFromBech32 "" : Except Error Addr) = .error e) :
    Attributes dfd wk s tx ↔ (OnlyContracts tx.msgs →
      ∀ c ∈ targets tx.msgs, ∀ c' ∈ targets tx.msgs, wk.target s c = wk.target s c') := by
  constructor
  · intro h hall c hc c' hc'
    -- either contract can be the last one
    have hans : ∀ c ∈ targets tx.msgs, (wk.target s c).answer
        = dfd.parseWasmMsgContractOwner s (.feeTx tx) := by
      intro c hc
      obtain ⟨msgs, hperm, hlast⟩ := exists_perm_last hc
      rw [← h.orderFree msgs hperm, parse_eq hwk]
      show _ = if OnlyContracts msgs then (wk.target s (lastContract msgs)).answer else _
      rw [if_pos ((onlyContracts_perm hperm).mpr hall), hlast]
    exact Target.answer_inj ((hans c hc).trans (hans c' hc').symm)
  · intro halike
    constructor
    · intro owner hans
      rw [parse_eq hwk] at hans
      change (if OnlyContracts tx.msgs then (wk.target s (lastContract tx.msgs)).answer else _) = _
        at hans
      by_cases hall : OnlyContracts tx.msgs
      · rw [if_pos hall] at hans
        have hlast := Target.answer_owned hans
        have hne : tx.msgs ≠ [] := by
          intro hnil
          obtain ⟨e, he⟩ := hempty
          rw [hnil] at hlast
          simp [lastContract, targets, ViewKeeper.target, he] at hlast
        refine ⟨hne, fun m hm => ?_⟩
        obtain ⟨c, hc⟩ := Option.ne_none_iff_exists'.mp (hall m hm)
        refine ⟨c, hc, ?_⟩
        rw [halike hall c (mem_targets.mpr ⟨m, hm, hc⟩) _ (lastContract_mem hall hne), hlast]
      · rw [if_neg hall] at hans
        cases hans
    · intro msgs hperm
      rw [parse_eq hwk, parse_eq hwk]
      show (if OnlyContracts msgs then (wk.target s (lastContract msgs)).answer else _)
        = if OnlyContracts tx.msgs then (wk.target s (lastContract tx.msgs)).answer else _
      by_cases hall : OnlyContracts tx.msgs
      · have hall' := (onlyContracts_perm hperm).mpr hall
        rw [if_pos hall, if_pos hall']
        by_cases hne : tx.msgs = []
        · rw [hne] at hperm ⊢
          rw [hperm.eq_nil]
        · have hne' : msgs ≠ [] := fun e => hne (by rw [e] at hperm; exact hperm.nil_eq.symm)
          have hsub : targets msgs ⊆ targets tx.msgs := (hperm.filterMap _).subset
          rw [halike hall _ (hsub (lastContract_mem hall' hne')) _ (lastContract_mem hall hne)]
      · rw [if_neg hall, if_neg (fun h => hall ((onlyContracts_perm hperm).mp h))]

def spellingDecorator : DeductFeeDecorator Spelling Unit :=
  ⟨none, none, fun _ _ _ => .ok ([], 1), some (contractKeeper Spelling)⟩

theorem attribution_game :
    Attributes spellingDecorator (contractKeeper Spelling) App.empty
      ⟨[.executeContract "me1game", .migrateContract "me1game"], [], 200000,
        ⟨"me1alice", by decide⟩, none⟩ :=
  (attribution_iff rfl ⟨_, rfl⟩).mpr (by decide)

/-- a call to one contract behind a call to another: the second owner gets the share of both -/
theorem attribution_last_contract :
    ¬ Attributes contractDecorator (contractKeeper String) aliceFunded.app
      (aliceTx [.executeContract "me1game", .executeContract "me1shop"]) := by
  intro h
  have hparse : contractDecorator.parseWasmMsgContractOwner aliceFunded.app
      (.feeTx (aliceTx [.executeContract "me1game", .executeContract "me1shop"]))
      = .ok ("me1carol", true) := by
    rw [parse_eq rfl]
    decide
  obtain ⟨_, hall⟩ := h.every "me1carol" hparse
  obtain ⟨c, hc, hown⟩ := hall (.executeContract "me1game") (List.mem_cons_self ..)
  cases hc
  revert hown
  decide

end DeductFeeDecorator

end MeChain
