import MeChain.Cmd.Genesis

/-!
# The accounts of all modules in the genesis

* `extend`             what one iteration of the loop adds;
* `addGenesisModuleAccounts_ok`  the command, as a fold of `extend`;
* `foldl_extend_at`    an address that is taken keeps its accounts;
* `orderFree_iff`      when the order of the permission map does not show in the file;
* `established`        what a file has after the command, and that it stays so.
-/

set_option linter.unusedSectionVars false

namespace MeChain
open Fallible Relabel

variable {Addr : Type} [SdkAddress Addr] [DecidableEq Addr]

/-! ## the loop -/

/-- the permission entry passes the checks of a new module account -/
def Acceptable (p : String × List String) : Prop := blank p.1 = false ∧ p.2.any blank = false

instance (p : String × List String) : Decidable (Acceptable p) :=
  inferInstanceAs (Decidable (_ ∧ _))

/-- the account of a permission entry -/
def accountOf (Addr : Type) [SdkAddress Addr] (p : String × List String) : GenesisAccount :=
  moduleAccount Addr p.1 p.2

/-- the address of a permission entry -/
def addressOf (Addr : Type) [SdkAddress Addr] (p : String × List String) : Addr :=
  newModuleAddress p.1

/-- no account is there for the permission entry -/
def Missing (Addr : Type) [SdkAddress Addr] [DecidableEq Addr] (accs : List GenesisAccount)
    (p : String × List String) : Prop := ¬ Contains accs (addressOf Addr p)

instance (accs : List GenesisAccount) (p : String × List String) :
    Decidable (Missing Addr accs p) := inferInstanceAs (Decidable (¬ _))

/-- the accounts after one iteration -/
def extend (Addr : Type) [SdkAddress Addr] [DecidableEq Addr] (accs : List GenesisAccount)
    (p : String × List String) : List GenesisAccount :=
  if Contains accs (addressOf Addr p) then accs else accs ++ [accountOf Addr p]

section
variable {accs accs' : List GenesisAccount} {p : String × List String}
  {l : List (String × List String)} {x : Addr}

theorem newModuleAccount_ok {name : String} {permissions : List String} {a : GenesisAccount} :
    newModuleAccount Addr name permissions = .ok a ↔
      permissions.any blank = false ∧ a = moduleAccount Addr name permissions := by
  unfold newModuleAccount
  rw [show goPanic "module permission is empty" = Except.error (.panic "module permission is empty")
    from rfl, guard_eq_ok, Bool.not_eq_true, Except.ok.injEq, eq_comm (a := a)]

theorem validateModuleAccount_ok {name : String} {permissions : List String} {u : Unit} :
    validateModuleAccount Addr (moduleAccount Addr name permissions) name = .ok u ↔
      blank name = false := by
  refine guard_eq_ok.trans ?_
  rw [Bool.not_eq_true, and_iff_left]
  exact if_neg (not_not.mpr rfl)

theorem addModuleAccount_ok :
    addModuleAccount Addr accs p = .ok accs' ↔ Acceptable p ∧ accs' = extend Addr accs p := by
  have hadd : ∀ a, a = accountOf Addr p → (if Contains accs (addressOf Addr p) then .ok accs
      else .ok (accs ++ [a]) : Res (List GenesisAccount)) = .ok (extend Addr accs p) := by
    rintro a rfl
    unfold extend
    split
    · rfl
    · rfl
  constructor
  · intro h
    obtain ⟨a, ha, h⟩ := bind_eq_ok.mp h
    obtain ⟨hperms, rfl⟩ := newModuleAccount_ok.mp ha
    obtain ⟨u, hu, h⟩ := bind_eq_ok.mp h
    have hname := validateModuleAccount_ok.mp (wrap_ok.mp hu)
    exact ⟨⟨hname, hperms⟩, Except.ok.inj (h.symm.trans (hadd _ rfl))⟩
  · intro h
    obtain ⟨⟨hname, hperms⟩, rfl⟩ := h
    exact bind_eq_ok.mpr ⟨_, newModuleAccount_ok.mpr ⟨hperms, rfl⟩, bind_eq_ok.mpr
      ⟨(), wrap_ok.mpr (validateModuleAccount_ok.mpr hname), hadd _ rfl⟩⟩

theorem addModuleAccounts_ok : l.foldlM (addModuleAccount Addr) accs = .ok accs' ↔
    (∀ p ∈ l, Acceptable p) ∧ accs' = l.foldl (extend Addr) accs := by
  induction l generalizing accs with
  | nil =>
    rw [foldlM_nil_ok]
    simp [eq_comm]
  | cons p l ih =>
    rw [foldlM_cons_ok, List.forall_mem_cons, List.foldl_cons]
    constructor
    · intro h
      obtain ⟨t, ht, h⟩ := h
      obtain ⟨hp, rfl⟩ := addModuleAccount_ok.mp ht
      obtain ⟨hl, rfl⟩ := ih.mp h
      exact ⟨⟨hp, hl⟩, rfl⟩
    · intro h
      obtain ⟨⟨hp, hl⟩, rfl⟩ := h
      exact ⟨_, addModuleAccount_ok.mpr ⟨hp, rfl⟩, ih.mpr ⟨hl, rfl⟩⟩

/-- **The command**: the missing accounts appended, and everything sanitized. -/
theorem addGenesisModuleAccounts_ok {g g' : GenesisState} :
    addGenesisModuleAccounts Addr l g = .ok g' ↔ (∀ p ∈ l, Acceptable p) ∧
      g' = { g with auth := sanitizeGenesisAccounts (l.foldl (extend Addr) g.auth) } := by
  constructor
  · intro h
    obtain ⟨accs, haccs, h⟩ := bind_eq_ok.mp h
    obtain ⟨hl, rfl⟩ := addModuleAccounts_ok.mp haccs
    cases h
    exact ⟨hl, rfl⟩
  · intro h
    obtain ⟨hl, rfl⟩ := h
    exact bind_eq_ok.mpr ⟨_, addModuleAccounts_ok.mpr ⟨hl, rfl⟩, rfl⟩

/-! ## which accounts are at an address -/

/-- the accounts at an address -/
def accountsAt (accs : List GenesisAccount) (x : Addr) : List GenesisAccount :=
  accs.filter fun a => Spells a.address x

theorem mem_accountsAt {a : GenesisAccount} :
    a ∈ accountsAt accs x ↔ a ∈ accs ∧ Spells a.address x := by
  unfold accountsAt
  rw [List.mem_filter, decide_eq_true_iff]

theorem contains_iff : Contains accs x ↔ accountsAt accs x ≠ [] := by
  rw [Ne, List.eq_nil_iff_forall_not_mem, not_forall_not]
  exact exists_congr (fun _ => mem_accountsAt.symm)

theorem accountsAt_append (accs' : List GenesisAccount) :
    accountsAt (accs ++ accs') x = accountsAt accs x ++ accountsAt accs' x :=
  List.filter_append ..

theorem spells_accountOf : Spells (accountOf Addr p).address x ↔ addressOf Addr p = x :=
  spells_str

theorem accountsAt_extend (h : addressOf Addr p = x → Contains accs x) :
    accountsAt (extend Addr accs p) x = accountsAt accs x := by
  unfold extend
  split_ifs with hc
  · rfl
  · have hne : addressOf Addr p ≠ x := fun he => hc (he ▸ h he)
    have hnone : accountsAt [accountOf Addr p] x = [] :=
      List.filter_cons_of_neg (by rw [decide_eq_true_iff, spells_accountOf]; exact hne)
    rw [accountsAt_append, hnone, List.append_nil]

theorem contains_extend (h : Contains accs x) : Contains (extend Addr accs p) x := by
  rw [contains_iff, accountsAt_extend (fun _ => h)]
  exact contains_iff.mp h

theorem accountsAt_extend_self (h : Missing Addr accs p) :
    accountsAt (extend Addr accs p) (addressOf Addr p) = [accountOf Addr p] := by
  have hnone : accountsAt accs (addressOf Addr p) = [] := by
    by_contra hne
    exact h (contains_iff.mpr hne)
  have hone : accountsAt [accountOf Addr p] (addressOf Addr p) = [accountOf Addr p] :=
    List.filter_cons_of_pos (decide_eq_true (spells_accountOf.mpr rfl))
  rw [extend, if_neg h, accountsAt_append, hnone, List.nil_append, hone]

/-- **An address that is taken, or that no entry has**, keeps its accounts. -/
theorem foldl_extend_at (h : ∀ p ∈ l, addressOf Addr p = x → Contains accs x) :
    accountsAt (l.foldl (extend Addr) accs) x = accountsAt accs x := by
  induction l generalizing accs with
  | nil => rfl
  | cons p l ih =>
    obtain ⟨hp, hl⟩ := List.forall_mem_cons.mp h
    rw [List.foldl_cons, ih (fun q hq he => contains_extend (hl q hq he)), accountsAt_extend hp]

theorem foldl_extend_self (h : ∀ p ∈ l, Contains accs (addressOf Addr p)) :
    l.foldl (extend Addr) accs = accs := by
  induction l with
  | nil => rfl
  | cons p l ih =>
    obtain ⟨hp, hl⟩ := List.forall_mem_cons.mp h
    rw [List.foldl_cons, extend, if_pos hp, ih hl]

/-- with the missing entries at different addresses all of them are added, in their order -/
theorem foldl_extend_eq (accs : List GenesisAccount)
    (h : (l.filter (Missing Addr accs)).Pairwise (fun p q => addressOf Addr p ≠ addressOf Addr q)) :
    l.foldl (extend Addr) accs = accs ++ (l.filter (Missing Addr accs)).map (accountOf Addr) := by
  induction l generalizing accs with
  | nil => exact (List.append_nil _).symm
  | cons p l ih =>
    rw [List.foldl_cons]
    by_cases hp : Missing Addr accs p
    · rw [List.filter_cons_of_pos (by simpa using hp)] at h ⊢
      obtain ⟨hne, h⟩ := List.pairwise_cons.mp h
      -- the others that are missing are missing still
      have hsame : l.filter (Missing Addr (extend Addr accs p)) = l.filter (Missing Addr accs) := by
        refine List.filter_congr (fun q hq => decide_eq_decide.mpr ⟨fun hmiss hc => ?_, fun hmiss => ?_⟩)
        · exact hmiss (contains_extend hc)
        · have hq' : addressOf Addr p ≠ addressOf Addr q :=
            hne q (List.mem_filter.mpr ⟨hq, decide_eq_true hmiss⟩)
          rw [Missing, contains_iff, accountsAt_extend (fun he => absurd he hq'), ← contains_iff]
          exact hmiss
      rw [ih _ (hsame ▸ h), hsame, List.map_cons, extend, if_neg hp, List.append_assoc]
      rfl
    · rw [List.filter_cons_of_neg (by simpa using hp)] at h ⊢
      rw [extend, if_pos (not_not.mp hp)]
      exact ih _ h

end

/-! ## numbers -/

section
variable {accs : List GenesisAccount} {x : Addr} {a : GenesisAccount}

theorem accountsAt_sanitize (h : accountsAt accs x = [a]) : ∃ b,
    accountsAt (sanitizeGenesisAccounts accs) x = [b] ∧ b.unnumbered = a.unnumbered :=
  makeDistinct_single (P := fun a : GenesisAccount => decide (Spells a.address x))
    (fun _ _ => rfl) h

theorem contains_sanitize (h : Contains accs x) : Contains (sanitizeGenesisAccounts accs) x := by
  obtain ⟨a, ha, hx⟩ := h
  obtain ⟨b, hb, he⟩ := mem_makeDistinct_iff.mpr ⟨a, ha, rfl⟩
  refine ⟨b, hb, ?_⟩
  show Spells (GenesisAccount.unnumbered b).address x
  rw [show GenesisAccount.unnumbered b = a.unnumbered from he]
  exact hx

end

/-! ## the order of the permission map -/

/-- two runs on one file write the same, in whatever orders the permission map is enumerated -/
def OrderFree (Addr : Type) [SdkAddress Addr] [DecidableEq Addr] (n : ModuleNames)
    (g : GenesisState) : Prop :=
  ∀ perms perms' : List (String × List String), perms.Perm n.maccPerms → perms'.Perm n.maccPerms →
    addGenesisModuleAccounts Addr perms g = addGenesisModuleAccounts Addr perms' g

/-- the module names are constants, none of them blank -/
def ModuleNames.NotBlank (n : ModuleNames) : Prop := ∀ p ∈ n.maccPerms, blank p.1 = false

instance (n : ModuleNames) : Decidable n.NotBlank :=
  inferInstanceAs (Decidable (∀ p ∈ n.maccPerms, _))

section
variable {n : ModuleNames} {g : GenesisState} {accs : List GenesisAccount}
  {e e' p : String × List String} {l : List (String × List String)}

theorem maccPerms_permissions (h : p ∈ n.maccPerms) : p.2.any blank = false := by
  have hall : (n.maccPerms.all fun p => !p.2.any blank) = true := rfl
  simpa using List.all_eq_true.mp hall p h

theorem acceptable_of_perm (hnames : n.NotBlank) (h : l.Perm n.maccPerms) :
    ∀ p ∈ l, Acceptable p := fun p hp =>
  ⟨hnames p (h.mem_iff.mp hp), maccPerms_permissions (h.mem_iff.mp hp)⟩

/-- two entries of the map with one name are one entry -/
theorem maccPerms_eq (hp : p ∈ n.maccPerms) (he : e ∈ n.maccPerms) (h : p.1 = e.1) : p = e :=
  List.inj_on_of_nodup_map (show (n.maccPerms.map Prod.fst).Nodup from n.distinct) hp he h

theorem prefix_foldl_extend : accs <+: l.foldl (extend Addr) accs := by
  induction l generalizing accs with
  | nil => exact List.prefix_refl _
  | cons p l ih =>
    refine List.IsPrefix.trans ?_ ih
    unfold extend
    split
    · exact List.prefix_refl _
    · exact List.prefix_append _ _

theorem accountsAt_head (h : Missing Addr accs e) :
    accountsAt ((e :: l).foldl (extend Addr) accs) (addressOf Addr e) = [accountOf Addr e] := by
  have hself := accountsAt_extend_self h
  rw [List.foldl_cons, foldl_extend_at (fun _ _ _ => ?_), hself]
  rw [contains_iff, hself]
  exact List.cons_ne_nil _ _

theorem missing_extend (h : Missing Addr accs e') (hne : addressOf Addr e ≠ addressOf Addr e') :
    Missing Addr (extend Addr accs e) e' := by
  rw [Missing, contains_iff, accountsAt_extend (fun he => absurd he hne), ← contains_iff]
  exact h

/-- Two missing entries in front, at different addresses: both are added, and the first one gets the
smaller number. -/
theorem numbered_in_order (h : Missing Addr accs e) (h' : Missing Addr accs e')
    (hne : addressOf Addr e ≠ addressOf Addr e') :
    ∃ i j, i < j ∧
      { accountOf Addr e with accountNumber := i }
        ∈ sanitizeGenesisAccounts ((e :: e' :: l).foldl (extend Addr) accs) ∧
      { accountOf Addr e' with accountNumber := j }
        ∈ sanitizeGenesisAccounts ((e :: e' :: l).foldl (extend Addr) accs) := by
  have htwo : [accountOf Addr e, accountOf Addr e'].Sublist
      ((e :: e' :: l).foldl (extend Addr) accs) := by
    rw [List.foldl_cons, List.foldl_cons]
    refine List.Sublist.trans ?_ prefix_foldl_extend.sublist
    rw [extend, if_neg (missing_extend h' hne), extend, if_neg h, List.append_assoc]
    exact List.sublist_append_right _ _
  exact makeDistinct_lt htwo rfl rfl

theorem number_unique {a : GenesisAccount} {x : Addr} {i j : Nat} (h : accountsAt accs x = [a])
    (hi : { a with accountNumber := i } ∈ sanitizeGenesisAccounts accs)
    (hj : { a with accountNumber := j } ∈ sanitizeGenesisAccounts accs) : i = j := by
  obtain ⟨b, hb, _⟩ := accountsAt_sanitize h
  have ha : Spells a.address x := (mem_accountsAt.mp (h ▸ List.mem_singleton_self a)).2
  have hone : ∀ k, { a with accountNumber := k } ∈ sanitizeGenesisAccounts accs →
      { a with accountNumber := k } = b := by
    intro k hk
    have hmem := mem_accountsAt.mpr ⟨hk, ha⟩
    rw [hb] at hmem
    exact List.mem_singleton.mp hmem
  exact congrArg GenesisAccount.accountNumber ((hone i hi).trans (hone j hj).symm)

/-- **Two missing entries** swapped in front of the others make a difference. -/
theorem order_shows (h : Missing Addr accs e) (h' : Missing Addr accs e') (hne : e.1 ≠ e'.1) :
    sanitizeGenesisAccounts ((e :: e' :: l).foldl (extend Addr) accs)
      ≠ sanitizeGenesisAccounts ((e' :: e :: l).foldl (extend Addr) accs) := by
  intro heq
  by_cases hx : addressOf Addr e = addressOf Addr e'
  · -- only the first of the two is added
    obtain ⟨b, hb, hba⟩ := accountsAt_sanitize (accountsAt_head (l := e' :: l) h)
    obtain ⟨c, hc, hca⟩ := accountsAt_sanitize (accountsAt_head (l := e :: l) h')
    rw [← heq, ← hx, hb] at hc
    cases hc
    have hkind : (accountOf Addr e).kind = (accountOf Addr e').kind :=
      congrArg GenesisAccount.kind (hba.symm.trans hca)
    injection hkind with hname
    exact hne hname
  · obtain ⟨i, j, hij, hi, hj⟩ := numbered_in_order (l := l) h h' hx
    obtain ⟨i', j', hij', hi', hj'⟩ := numbered_in_order (l := l) h' h (Ne.symm hx)
    rw [← heq] at hi' hj'
    have h1 := number_unique (accountsAt_head (l := e' :: l) h) hi hj'
    have h2 := number_unique (accountsAt_head (l := l) (missing_extend h' hx)) hj hi'
    omega

/-- two missing entries can come first -/
theorem two_missing (h : ¬ (n.maccPerms.filter (Missing Addr accs)).length ≤ 1) : ∃ e e' rest,
    n.maccPerms.Perm (e :: e' :: rest) ∧ Missing Addr accs e ∧ Missing Addr accs e' ∧ e.1 ≠ e'.1 := by
  match hfilter : n.maccPerms.filter (Missing Addr accs) with
  | [] =>
    rw [hfilter] at h
    exact absurd (Nat.zero_le 1) h
  | [e] =>
    rw [hfilter] at h
    exact absurd (le_refl 1) h
  | e :: e' :: l =>
    have hmem : ∀ p ∈ e :: e' :: l, p ∈ n.maccPerms ∧ Missing Addr accs p := by
      intro p hp
      rw [← hfilter, List.mem_filter, decide_eq_true_iff] at hp
      exact hp
    have he := hmem e (List.mem_cons_self ..)
    have he' := hmem e' (List.mem_cons_of_mem _ (List.mem_cons_self ..))
    have hnodup : (n.maccPerms.filter (Missing Addr accs)).Nodup :=
      (List.Nodup.of_map _ (show (n.maccPerms.map Prod.fst).Nodup from n.distinct)).filter _
    rw [hfilter] at hnodup
    have hne : e ≠ e' := fun hee => (List.nodup_cons.mp hnodup).1 (hee ▸ List.mem_cons_self ..)
    have hfront : [e, e'].Sublist (n.maccPerms.filter (Missing Addr accs)) :=
      hfilter ▸ ((List.nil_sublist l).cons_cons e').cons_cons e
    obtain ⟨rest, hperm⟩ := (hfront.trans List.filter_sublist).exists_perm_append
    exact ⟨e, e', rest, hperm, he.2, he'.2, fun hname => hne (maccPerms_eq he.1 he'.1 hname)⟩

theorem missing_eq {perms perms' : List (String × List String)}
    (h : (n.maccPerms.filter (Missing Addr accs)).length ≤ 1) (hperms : perms.Perm n.maccPerms)
    (hperms' : perms'.Perm n.maccPerms) :
    perms.filter (Missing Addr accs) = perms'.filter (Missing Addr accs) := by
  have hsame := (hperms.trans hperms'.symm).filter (Missing Addr accs)
  rw [← (hperms.filter (Missing Addr accs)).length_eq] at h
  match hf : perms.filter (Missing Addr accs) with
  | [] =>
    rw [hf] at hsame
    exact hf.trans hsame.nil_eq
  | [p] =>
    rw [hf] at hsame
    exact hf.trans (List.singleton_perm.mp hsame)
  | p :: q :: l =>
    rw [hf, List.length_cons, List.length_cons] at h
    omega

theorem foldl_extend_short (h : (n.maccPerms.filter (Missing Addr accs)).length ≤ 1)
    (hl : l.Perm n.maccPerms) :
    l.foldl (extend Addr) accs = accs ++ (l.filter (Missing Addr accs)).map (accountOf Addr) := by
  refine foldl_extend_eq accs ?_
  rw [← (hl.filter (Missing Addr accs)).length_eq] at h
  match hf : l.filter (Missing Addr accs) with
  | [] =>
    rw [hf]
    exact List.Pairwise.nil
  | [p] =>
    rw [hf]
    exact List.pairwise_singleton _ _
  | p :: q :: l' =>
    rw [hf, List.length_cons, List.length_cons] at h
    omega

/-- **The order of the permission map does not show exactly when** at most one module has no account
in the file. -/
theorem orderFree_iff (hnames : n.NotBlank) :
    OrderFree Addr n g ↔ (n.maccPerms.filter (Missing Addr g.auth)).length ≤ 1 := by
  have hrun : ∀ perms : List (String × List String), perms.Perm n.maccPerms →
      addGenesisModuleAccounts Addr perms g = .ok { g with
        auth := sanitizeGenesisAccounts (perms.foldl (extend Addr) g.auth) } :=
    fun perms hperms => addGenesisModuleAccounts_ok.mpr ⟨acceptable_of_perm hnames hperms, rfl⟩
  constructor
  · intro hfree
    by_contra hlen
    obtain ⟨e, e', rest, hperm, he, he', hne⟩ := two_missing hlen
    have hperm' : (e' :: e :: rest).Perm n.maccPerms := (List.Perm.swap e e' rest).trans hperm.symm
    have hsame := hfree _ _ hperm.symm hperm'
    rw [hrun _ hperm.symm, hrun _ hperm'] at hsame
    exact order_shows he he' hne (congrArg GenesisState.auth (Except.ok.inj hsame))
  · intro hlen perms perms' hperms hperms'
    rw [hrun perms hperms, hrun perms' hperms', foldl_extend_short hlen hperms,
      foldl_extend_short hlen hperms', missing_eq hlen hperms hperms']

/-- a file that lacks the account of the fee collector only -/
theorem orderFree_one_missing :
    ModuleNames.sdk.NotBlank ∧ OrderFree String ModuleNames.sdk
      ⟨(ModuleNames.sdk.maccPerms.drop 1).map (accountOf String), ⟨[], []⟩⟩ :=
  ⟨by decide +kernel, (orderFree_iff (by decide +kernel)).mpr (by decide +kernel)⟩

/-- The empty file: the fee collector and the distribution account exchange their numbers. -/
theorem orderFree_empty_false : ¬ OrderFree String ModuleNames.sdk .empty := by
  intro hfree
  have hsame := hfree ModuleNames.sdk.maccPerms
    (("distribution", []) :: ("fee_collector", []) :: ModuleNames.sdk.maccPerms.drop 2)
    (List.Perm.refl _) (List.Perm.swap ..)
  exact absurd hsame (by decide +kernel)

end

/-! ## what the command establishes -/

/-- no two accounts are at one address -/
def DistinctAddresses (Addr : Type) [SdkAddress Addr] (accs : List GenesisAccount) : Prop :=
  accs.Pairwise fun a b => ∀ x : Addr, Spells a.address x → ¬ Spells b.address x

/-- at the address of every module is one account, and it is the one of the module -/
def EveryModule (Addr : Type) [SdkAddress Addr] [DecidableEq Addr] (n : ModuleNames)
    (accs : List GenesisAccount) : Prop :=
  ∀ p ∈ n.maccPerms, ∃ b, accountsAt accs (addressOf Addr p) = [b] ∧ b.kind = .module p.1 p.2

/-- What a file has after the command.  A module whose address was taken keeps the account that was
there. -/
structure Established (Addr : Type) [SdkAddress Addr] [DecidableEq Addr] (n : ModuleNames)
    (g g' : GenesisState) : Prop where
  created : ∀ p ∈ n.maccPerms, Missing Addr g.auth p → ∃ b,
    accountsAt g'.auth (addressOf Addr p) = [b] ∧ b.kind = .module p.1 p.2 ∧ b.pubKey = none
  found : ∀ p ∈ n.maccPerms, ∀ a ∈ g.auth, Spells a.address (addressOf Addr p) → ∃ b,
    accountsAt g'.auth (addressOf Addr p) = [b] ∧ b.unnumbered = a.unnumbered
  kept : (g'.auth.map GenesisAccount.unnumbered).Perm (g.auth.map GenesisAccount.unnumbered ++
    (n.maccPerms.filter (Missing Addr g.auth)).map (accountOf Addr))
  numbers : (g'.auth.map GenesisAccount.accountNumber).Nodup
  bank : g'.bank = g.bank
  again : ∀ perms : List (String × List String), perms.Perm n.maccPerms →
    addGenesisModuleAccounts Addr perms g' = .ok g'

section
variable {n : ModuleNames} {g g' : GenesisState} {accs : List GenesisAccount} {a : GenesisAccount}
  {l : List (String × List String)} {p : String × List String} {x : Addr}

theorem accountsAt_of_distinct (h : DistinctAddresses Addr accs) (ha : a ∈ accs)
    (hx : Spells a.address x) : accountsAt accs x = [a] := by
  induction h with
  | nil => cases ha
  | @cons b accs hb h ih =>
    rcases List.mem_cons.mp ha with rfl | ha
    · have hnone : accountsAt accs x = [] :=
        List.filter_eq_nil_iff.mpr (fun c hc => by
          rw [decide_eq_true_iff]
          exact hb c hc x hx)
      rw [accountsAt, List.filter_cons_of_pos (by rwa [decide_eq_true_iff])]
      exact congrArg (a :: ·) hnone
    · have hskip : ¬ Spells b.address x := fun hbx => hb a ha x hbx hx
      rw [accountsAt, List.filter_cons_of_neg (by rwa [decide_eq_true_iff])]
      exact ih ha

theorem distinct_foldl_extend (h : DistinctAddresses Addr accs)
    (hl : l.Pairwise (fun p q => addressOf Addr p ≠ addressOf Addr q)) :
    DistinctAddresses Addr (l.foldl (extend Addr) accs) := by
  rw [foldl_extend_eq accs (hl.filter _)]
  refine List.pairwise_append.mpr ⟨h, ?_, ?_⟩
  · refine List.pairwise_map.mpr ((hl.filter _).imp (fun hne x hp hq => hne ?_))
    exact (spells_accountOf.mp hp).trans (spells_accountOf.mp hq).symm
  · intro a ha b hb x hax hbx
    obtain ⟨p, hp, rfl⟩ := List.mem_map.mp hb
    rw [← spells_accountOf.mp hbx] at hax
    exact (of_decide_eq_true (List.mem_filter.mp hp).2 : Missing Addr accs p) ⟨a, ha, hax⟩

theorem mem_foldl_extend (hl : l.Pairwise (fun p q => addressOf Addr p ≠ addressOf Addr q))
    (hp : p ∈ l) (h : Missing Addr accs p) : accountOf Addr p ∈ l.foldl (extend Addr) accs := by
  rw [foldl_extend_eq accs (hl.filter _)]
  refine List.mem_append_right _ (List.mem_map_of_mem (List.mem_filter.mpr ⟨hp, ?_⟩))
  exact decide_eq_true h

theorem contains_foldl_extend (hl : l.Pairwise (fun p q => addressOf Addr p ≠ addressOf Addr q))
    (hp : p ∈ l) : Contains (l.foldl (extend Addr) accs) (addressOf Addr p) := by
  by_cases h : Missing Addr accs p
  · exact ⟨_, mem_foldl_extend hl hp h, spells_accountOf.mpr rfl⟩
  · obtain ⟨a, ha, hx⟩ := not_not.mp h
    exact ⟨a, prefix_foldl_extend.subset ha, hx⟩

/-- up to numbers, the accounts are the old ones and those of the missing entries -/
theorem unnumbered_perm (hl : l.Pairwise (fun p q => addressOf Addr p ≠ addressOf Addr q))
    (hperm : l.Perm n.maccPerms) :
    ((sanitizeGenesisAccounts (l.foldl (extend Addr) accs)).map GenesisAccount.unnumbered).Perm
      (accs.map GenesisAccount.unnumbered ++
        (n.maccPerms.filter (Missing Addr accs)).map (accountOf Addr)) := by
  have hall : ((sanitizeGenesisAccounts (l.foldl (extend Addr) accs)).map
      GenesisAccount.unnumbered).Perm
      ((l.foldl (extend Addr) accs).map GenesisAccount.unnumbered) := makeDistinct_perm
  refine hall.trans ?_
  rw [foldl_extend_eq accs (hl.filter _), List.map_append]
  refine List.Perm.append_left _ ?_
  -- a new account has number zero
  show (((l.filter _).map (accountOf Addr)).map GenesisAccount.unnumbered).Perm _
  rw [List.map_map]
  exact (hperm.filter _).map (accountOf Addr)

/-- a file that has all accounts, with distinct numbers in order, is left as it is -/
theorem addGenesisModuleAccounts_self {perms : List (String × List String)}
    (hacc : ∀ p ∈ perms, Acceptable p) (h : ∀ p ∈ perms, Contains accs (addressOf Addr p)) :
    addGenesisModuleAccounts Addr perms { g with auth := sanitizeGenesisAccounts accs }
      = .ok { g with auth := sanitizeGenesisAccounts accs } := by
  have hloop : perms.foldl (extend Addr) (sanitizeGenesisAccounts accs)
      = sanitizeGenesisAccounts accs :=
    foldl_extend_self (fun p hp => contains_sanitize (h p hp))
  have hdone : sanitizeGenesisAccounts (sanitizeGenesisAccounts accs)
      = sanitizeGenesisAccounts accs := makeDistinct_self makeDistinct_sorted
  refine addGenesisModuleAccounts_ok.mpr ⟨hacc, ?_⟩
  dsimp only
  rw [hloop, hdone]

/-- **Success establishes the accounts of all modules**, when module addresses differ. -/
theorem established (hmodules : n.maccPerms.Pairwise (fun p q => addressOf Addr p ≠ addressOf Addr q))
    (hperm : l.Perm n.maccPerms) (haddr : DistinctAddresses Addr g.auth)
    (h : addGenesisModuleAccounts Addr l g = .ok g') : Established Addr n g g' := by
  obtain ⟨hacc, rfl⟩ := addGenesisModuleAccounts_ok.mp h
  have hl : l.Pairwise (fun p q => addressOf Addr p ≠ addressOf Addr q) :=
    (hperm.pairwise_iff Ne.symm).mpr hmodules
  have hdistinct := distinct_foldl_extend haddr hl
  refine {
    created := fun p hp hmiss => ?_
    found := fun p _ a ha hx => ?_
    kept := unnumbered_perm hl hperm
    numbers := List.pairwise_map.mpr makeDistinct_distinct
    bank := rfl
    again := fun perms hperms => ?_ }
  · have hnew := mem_foldl_extend hl (hperm.mem_iff.mpr hp) hmiss
    have hone := accountsAt_of_distinct hdistinct hnew (spells_accountOf.mpr rfl)
    obtain ⟨b, hb, hba⟩ := accountsAt_sanitize hone
    have hkind : b.kind = .module p.1 p.2 := congrArg GenesisAccount.kind hba
    have hkey : b.pubKey = none := congrArg GenesisAccount.pubKey hba
    exact ⟨b, hb, hkind, hkey⟩
  · have hold : a ∈ l.foldl (extend Addr) g.auth := prefix_foldl_extend.subset ha
    exact accountsAt_sanitize (accountsAt_of_distinct hdistinct hold hx)
  · have hmem : ∀ p ∈ perms, p ∈ l := fun p hp => hperm.mem_iff.mpr (hperms.mem_iff.mp hp)
    exact addGenesisModuleAccounts_self (fun p hp => hacc p (hmem p hp))
      (fun p hp => contains_foldl_extend hl (hmem p hp))

theorem sdk_run : addGenesisModuleAccounts String ModuleNames.sdk.maccPerms g = .ok { g with
    auth := sanitizeGenesisAccounts (ModuleNames.sdk.maccPerms.foldl (extend String) g.auth) } :=
  addGenesisModuleAccounts_ok.mpr ⟨by decide +kernel, rfl⟩

/-- a file with one account, which is at the address of no module -/
theorem established_first : ∃ g', addGenesisModuleAccounts String ModuleNames.sdk.maccPerms
    ⟨[⟨"me1alice", none, 0, 0, .base⟩], ⟨[], []⟩⟩ = .ok g' ∧
    Established String ModuleNames.sdk ⟨[⟨"me1alice", none, 0, 0, .base⟩], ⟨[], []⟩⟩ g' := by
  refine ⟨_, sdk_run, ?_⟩
  have hmodules : ModuleNames.sdk.maccPerms.Pairwise
      (fun p q => addressOf String p ≠ addressOf String q) := by decide +kernel
  exact established hmodules (List.Perm.refl _) (List.pairwise_singleton _ _) sdk_run

/-- a plain account at the address of the gov module -/
def plainGov : GenesisState :=
  ⟨[⟨"me10d07y265gmmuvt4z0w9aw880jnsr700jf37v5y", none, 0, 0, .base⟩], ⟨[], []⟩⟩

/-- The plain account stays there. -/
theorem everyModule_gov_false : ¬ ∀ g g' : GenesisState, DistinctAddresses String g.auth →
    addGenesisModuleAccounts String ModuleNames.sdk.maccPerms g = .ok g' →
    EveryModule String ModuleNames.sdk g'.auth := by
  intro hall
  obtain ⟨b, hb, hkind⟩ := hall plainGov _ (List.pairwise_singleton _ _) sdk_run ("gov", [burner])
    (by decide +kernel)
  have hplain : ∀ b ∈ accountsAt (sanitizeGenesisAccounts
      (ModuleNames.sdk.maccPerms.foldl (extend String) plainGov.auth))
      (addressOf String ("gov", [burner])), b.kind = .base := by decide +kernel
  have hbase : b.kind = .base := hplain b (hb ▸ List.mem_singleton_self b)
  rw [hbase] at hkind
  cases hkind

end

end MeChain
