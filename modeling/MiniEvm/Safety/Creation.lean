import MiniEvm.Detectors.ContractUtils
import MiniEvm.Vm.History

namespace MiniEvm

open Math Framework StateDB

/-- No account has used up its nonces. -/
def StateDB.NoncesLeft (db : StateDB) : Prop := ∀ a, (db.getNonce a).toNat < 2 ^ 64 - 1

/-- Only an account without a nonce is reset, nonces grow, and code is given to accounts with a
nonce. -/
def StateOp.Careful (db : StateDB) : StateOp → Prop
  | createAccount a => db.getNonce a = 0
  | setNonce a n => db.getNonce a ≤ n
  | setCode a _ => db.getNonce a ≠ 0
  | _ => True

section Nonces

variable {db : StateDB} {op : StateOp} {ops : List StateOp} {a : Address}

theorem nonce_perform (hcare : op.Careful db) (ha : db.getNonce a ≠ 0) :
    db.getNonce a ≤ (db.perform op).getNonce a := by
  simp only [getNonce, account_perform]
  split_ifs with ht
  · cases op with
    | createAccount x =>
      cases ht
      exact absurd hcare ha
    | setNonce x n =>
      cases ht
      exact hcare
    | subBalance x v =>
      simp only [StateOp.update]
      split_ifs <;> exact UInt64.le_refl _
    | _ => exact UInt64.le_refl _
  · exact UInt64.le_refl _

theorem nonce_ne_zero_of_le {m n : UInt64} (hm : m ≠ 0) (h : m ≤ n) : n ≠ 0 := by
  rintro rfl
  exact hm (UInt64.le_zero_iff.mp h)

theorem nonce_replay (hcare : Along StateDB.perform (fun db op => op.Careful db) db ops)
    (ha : db.getNonce a ≠ 0) : db.getNonce a ≤ (db.replay ops).getNonce a := by
  induction ops generalizing db with
  | nil => exact UInt64.le_refl _
  | cons op ops ih =>
    have hstep := nonce_perform hcare.1 ha
    exact UInt64.le_trans hstep (ih hcare.2 (nonce_ne_zero_of_le ha hstep))

/-- Every account with code has a nonce. -/
def StateDB.Numbered (db : StateDB) : Prop := ∀ a, db.getCode a ≠ [] → db.getNonce a ≠ 0

theorem StateDB.Numbered.perform (h : db.Numbered) (hcare : op.Careful db) :
    (db.perform op).Numbered := by
  intro x hx
  by_cases hnonce : db.getNonce x = 0
  · -- the account had no code, and without a nonce it is given none
    have hcode : db.getCode x = [] := by
      by_contra hne
      exact h x hne hnonce
    refine absurd ?_ hx
    rw [getCode, account_perform]
    split_ifs with ht
    · cases op with
      | createAccount y => rfl
      | setCode y c =>
        cases ht
        exact absurd hnonce hcare
      | subBalance y v =>
        simp only [StateOp.update]
        split_ifs <;> exact hcode
      | _ => exact hcode
    · exact hcode
  · exact nonce_ne_zero_of_le hnonce (nonce_perform hcare hnonce)

end Nonces

/-- Accounts keep enough nonces at every point of a history. -/
def Lasting (db : StateDB) (ops : List StateOp) : Prop :=
  ∀ pre, pre <+: ops → (db.replay pre).NoncesLeft

theorem lasting_append {db : StateDB} {ops ops' : List StateOp} (h : Lasting db (ops ++ ops')) :
    Lasting db ops ∧ Lasting (db.replay ops) ops' := by
  refine ⟨fun pre hpre => h pre (hpre.trans (List.prefix_append ..)), fun pre hpre => ?_⟩
  rw [← replay_append]
  exact h _ ((List.prefix_append_right_inj ops).mpr hpre)

theorem lt_add_one_of_noncesLeft {n : UInt64} (h : n.toNat < 2 ^ 64 - 1) : n < n + 1 ∧ n + 1 ≠ 0 := by
  have hadd : (n + 1).toNat = n.toNat + 1 := by
    rw [UInt64.toNat_add]
    exact Nat.mod_eq_of_lt (by simp only [UInt64.toNat_one]; omega)
  refine ⟨UInt64.lt_iff_toNat_lt.mpr (by omega), fun hzero => ?_⟩
  rw [hzero] at hadd
  cases hadd

/-- The operations of a stretch are careful as long as no nonce runs out. -/
def CarefulOps (db : StateDB) (ops : List StateOp) : Prop :=
  Lasting db ops → Along StateDB.perform (fun db op => op.Careful db) db ops

theorem CarefulOps.append {db : StateDB} {ops ops' : List StateOp} (h : CarefulOps db ops)
    (h' : CarefulOps (db.replay ops) ops') : CarefulOps db (ops ++ ops') := by
  intro hlast
  obtain ⟨hlast, hlast'⟩ := lasting_append hlast
  exact along_append.mpr ⟨h hlast, h' hlast'⟩

theorem OpCode.gasOps_careful (op : OpCode) (env : Env) (db : StateDB) (fr : Frame) :
    CarefulOps db (op.gasOps env fr) := by
  intro _
  unfold gasOps
  split
  · exact ⟨trivial, trivial⟩
  · split_ifs
    · exact ⟨trivial, trivial, trivial⟩
    · exact ⟨trivial, trivial⟩
  · trivial

theorem OpCode.effectOps_careful (op : OpCode) (env : Env) (db : StateDB) (fr : Frame) :
    CarefulOps db (op.effectOps env db fr) := by
  intro _
  unfold effectOps
  split
  case h_4 => exact ⟨trivial, trivial, trivial, trivial⟩
  case h_6 =>
    split
    · split_ifs
      · exact ⟨trivial, trivial⟩
      · trivial
    · trivial
  all_goals exact ⟨trivial, trivial⟩

theorem raiseNonce_careful (db : StateDB) (a : Address) :
    CarefulOps db [.getBalance a, .setNonce a (db.getNonce a + 1)] := by
  intro hlast
  have hlt := (lt_add_one_of_noncesLeft (hlast [] List.nil_prefix a)).1
  refine ⟨trivial, ?_, trivial⟩
  change (db.getBalance a).2.getNonce a ≤ db.getNonce a + 1
  rw [getNonce_getBalance]
  exact UInt64.le_of_lt hlt

theorem getNonce_perform_of {db : StateDB} {op : StateOp} (x : Address)
    (h : ∀ present s, (op.update present s).nonce = s.nonce) :
    (db.perform op).getNonce x = db.getNonce x := by
  simp only [getNonce, account_perform]
  split_ifs
  · exact h ..
  · rfl

@[simp] theorem getNonce_perform_subBalance (db : StateDB) (a x : Address) (v : Int) :
    (db.perform (.subBalance a v)).getNonce x = db.getNonce x :=
  getNonce_perform_of x fun present s => by
    simp only [StateOp.update]
    split_ifs <;> rfl

@[simp] theorem getNonce_perform_addBalance (db : StateDB) (a x : Address) (v : Int) :
    (db.perform (.addBalance a v)).getNonce x = db.getNonce x :=
  getNonce_perform_of x fun _ _ => rfl

/-- A created account has its first nonce when its code runs. -/
theorem createOps_nonce {env : Env} (heip : env.isEIP158 = true) (db : StateDB) (a addr : Address)
    (value : Int) : (db.replay (createOps env db a addr value)).getNonce addr = 1 := by
  simp only [createOps, heip, if_true, List.cons_append, List.nil_append, replay, List.foldl_cons,
    List.foldl_nil, getNonce_perform_addBalance, getNonce_perform_subBalance]
  simp [getNonce, account_perform, StateOp.target, StateOp.update]

theorem createOps_careful {env : Env} (heip : env.isEIP158 = true) {db : StateDB}
    {a addr : Address} (value : Int)
    (free : collides env (db.replay [.getBalance a, .setNonce a (db.getNonce a + 1)]) addr = false) :
    CarefulOps db (createOps env db a addr value) := by
  have hfree : (db.replay [.getBalance a, .setNonce a (db.getNonce a + 1)]).getNonce addr = 0 := by
    simp only [collides, Bool.or_eq_false_iff, decide_eq_false_iff_not, not_not] at free
    exact free.1
  have hops : createOps env db a addr value =
      [.getBalance a, .setNonce a (db.getNonce a + 1)] ++
        [.createAccount addr, .setNonce addr 1, .subBalance a value, .addBalance addr value] := by
    simp [createOps, heip]
  rw [hops]
  refine (raiseNonce_careful db a).append fun _ => ⟨hfree, ?_, trivial, trivial, trivial⟩
  -- the account was just reset
  have hzero : ∀ db' : StateDB, (db'.perform (.createAccount addr)).getNonce addr = 0 := by
    intro db'
    simp [getNonce, account_perform, StateOp.target, StateOp.update, State.new]
  change (StateDB.perform _ _).getNonce addr ≤ 1
  rw [hzero]
  exact UInt64.zero_le

/-- The new account still has a nonce when its code is stored. -/
theorem storeCode_careful {env : Env} (heip : env.isEIP158 = true) {db : StateDB}
    {a addr : Address} {value : Int} {ops : List StateOp} (code : Bytes)
    (free : collides env (db.replay [.getBalance a, .setNonce a (db.getNonce a + 1)]) addr = false)
    (inner : CarefulOps (db.replay (createOps env db a addr value)) ops) :
    CarefulOps db (createOps env db a addr value ++ ops ++ [.setCode addr code]) := by
  intro hlast
  have hrun := (createOps_careful heip value free).append inner (lasting_append hlast).1
  refine along_append.mpr ⟨hrun, ?_, trivial⟩
  have hone := createOps_nonce heip db a addr value
  have hle := nonce_replay (a := addr) (along_append.mp hrun).2 (by
    change (StateDB.replay _ _).getNonce addr ≠ 0
    rw [hone]
    decide)
  refine nonce_ne_zero_of_le (m := 1) (by decide) ?_
  rw [← replay, replay_append]
  change (StateDB.replay _ _).getNonce addr ≤ _ at hle
  rwa [hone] at hle

/-- Every call tree is careful under the rules of EIP158. -/
theorem careful_rule {env : Env} (heip : env.isEIP158 = true) : HistoryRule env CarefulOps where
  nil _ _ := trivial
  append := CarefulOps.append
  gas op db fr := op.gasOps_careful env db fr
  effect op db fr := op.effectOps_careful env db fr
  ask _ _ _ := ⟨trivial, trivial⟩
  pay _ _ _ _ _ := ⟨trivial, trivial, trivial, trivial⟩
  raise := raiseNonce_careful
  create v free := createOps_careful heip v free
  store code free inner := storeCode_careful heip code free inner

/-- Calls and creations made one after the other on one store, under the rules of EIP158. -/
inductive Runs (db₀ : StateDB) : StateDB → Prop
  | start : Runs db₀ db₀
  | run {env : Env} {fuel : Nat} {evm : Evm} {caller : ContractRef} {gas : UInt64} {e : Entry}
      {r : CreateResult} (before : Runs db₀ evm.stateDB) (heip : env.isEIP158 = true)
      (h : e.start env fuel evm caller gas = .ok r) : Runs db₀ r.evm.stateDB

theorem Runs.careful {db₀ db : StateDB} (h : Runs db₀ db) :
    Replays db₀ db ∧ CarefulOps db₀ (db₀.opsTo db) := by
  induction h with
  | start => exact ⟨.refl _, HistoryRule.of_ops [] rfl fun _ => trivial⟩
  | @run env fuel evm caller gas e r before heip h ih =>
    have hev := e.start_evolves h
    refine ⟨ih.1.trans hev.replays, ?_⟩
    rw [ih.1.opsTo_trans hev.replays]
    exact ih.2.append (ih.1 ▸ (careful_rule heip).evolves hev)

/-- What the detectors do to a new store before they run anything on it. -/
def StateOp.SetsUp : StateOp → Prop
  | setNonce _ _ | addBalance _ _ => True
  | _ => False

theorem setUp_code {setUp : List StateOp} (h : ∀ op ∈ setUp, op.SetsUp) (a : Address) :
    (StateDB.new.replay setUp).getCode a = [] := by
  induction setUp using List.reverseRecOn with
  | nil => rfl
  | append_singleton ops op ih =>
    have hops := ih fun op hop => h op (List.mem_append_left _ hop)
    have hop := h op (by simp)
    rw [replay_append]
    change (StateDB.perform _ op).getCode a = []
    rw [getCode, account_perform]
    split_ifs
    · cases op with
      | setNonce | addBalance => exact hops
      | _ => exact hop.elim
    · exact hops

/-- A `Create` that passes its checks first reads the balance of the creator and raises its nonce. -/
theorem create_ops {env : Env} {n : Nat} {evm : Evm} {caller : ContractRef} {code : Bytes}
    {gas : UInt64} {value : Int} {r : CreateResult} (hdepth : evm.depth ≤ callCreateDepth)
    (hcan : (canTransfer evm.stateDB caller.address value).1 = true)
    (h : evm.create env (interpreterRun env env.jumpTable n) caller code gas value = .ok r) :
    [.getBalance caller.address,
      .setNonce caller.address (evm.stateDB.getNonce caller.address + 1)] <+:
      evm.stateDB.opsTo r.evm.stateDB := by
  have of_replays : ∀ {ops : List StateOp} {db : StateDB}, Replays (evm.stateDB.replay ops) db →
      ops <+: evm.stateDB.opsTo db := by
    intro ops db hr
    have hops := evm.stateDB.replays_replay ops
    rw [hops.2.opsTo_trans hr, hops.1]
    exact List.prefix_append ..
  have hcreate : ∀ addr, [.getBalance caller.address,
      .setNonce caller.address (evm.stateDB.getNonce caller.address + 1)] <+:
      createOps env evm.stateDB caller.address addr value := by
    intro addr
    simp [createOps]
  unfold Evm.create at h
  simp only [if_neg (Nat.not_lt.mpr hdepth), hcan, Bool.not_true, Bool.false_eq_true, if_false] at h
  split_ifs at h with hcollide hno
  · cases h
    simp only [raiseNonce_ops]
    exact of_replays (.refl _)
  · cases h
    simp only [newAccount_ops]
    exact (hcreate _).trans (of_replays (.refl _))
  · obtain ⟨rr, hrr, h⟩ := Outcome.bind_eq_ok.mp h
    cases h
    have pass : Passes env evm := ⟨hno, hdepth⟩
    have hrun := (runContract_evolves (s := .entry caller) (interpreterRun_evolves env n)
      (by exact pass) hrr).replays
    simp only [newAccount_ops] at hrun
    have hend : ∀ snapshot addr, Replays rr.evm.stateDB
        (settleCreate env snapshot addr rr).evm.stateDB := by
      intro snapshot addr
      obtain he | he := settleCreate_evm env snapshot addr rr
      · rw [he]
        exact .refl _
      · rw [he]
        exact .of_ops [.setCode addr rr.ret] rfl
    exact (hcreate _).trans (of_replays (hrun.trans (hend _ _)))

/-- After the operations `pre` of a history a `Create` by `a` was made that passed its checks. -/
def Creates (db : StateDB) (ops pre : List StateOp) (a : Address) : Prop :=
  ∃ (env : Env) (n : Nat) (evm : Evm) (caller : ContractRef) (code : Bytes) (gas : UInt64)
    (value : Int) (r : CreateResult), caller.address = a ∧ evm.stateDB = db.replay pre ∧
    evm.depth ≤ callCreateDepth ∧ (canTransfer evm.stateDB caller.address value).1 = true ∧
    evm.create env (interpreterRun env env.jumpTable n) caller code gas value = .ok r ∧
    pre ++ evm.stateDB.opsTo r.evm.stateDB <+: ops

theorem Creates.ops {db : StateDB} {ops pre : List StateOp} {a : Address}
    (h : Creates db ops pre a) :
    pre ++ [.getBalance a, .setNonce a ((db.replay pre).getNonce a + 1)] <+: ops := by
  obtain ⟨env, n, evm, caller, code, gas, value, r, rfl, hdb, hdepth, hcan, hr, hops⟩ := h
  refine List.IsPrefix.trans ((List.prefix_append_right_inj pre).mpr ?_) hops
  have hpre := create_ops hdepth hcan hr
  rwa [hdb] at hpre ⊢

/-- No account with code is ever overwritten on the way from `db₀` to `db`. -/
structure NeverClobbers (db₀ db : StateDB) : Prop where
  code : ∀ pre, pre <+: db₀.opsTo db → ∀ a,
    (db₀.replay pre).getCode a ≠ [] → 1 ≤ (db₀.replay pre).getNonce a
  nonce : ∀ pre mid, pre ++ mid <+: db₀.opsTo db → ∀ a, (db₀.replay pre).getNonce a ≠ 0 →
    (db₀.replay pre).getNonce a ≤ (db₀.replay (pre ++ mid)).getNonce a
  creator : ∀ pre pre' a, Creates db₀ (db₀.opsTo db) pre a → Creates db₀ (db₀.opsTo db) pre' a →
    (db₀.replay pre).getNonce a = (db₀.replay pre').getNonce a → pre = pre'
  collision : ∀ pre, pre <+: db₀.opsTo db → ∀ (env : Env) (run : RunFn) (evm : Evm)
    (caller : ContractRef) (code : Bytes) (gas : UInt64) (value : Int) (addr : Address),
    evm.stateDB = db₀.replay pre → evm.depth ≤ callCreateDepth →
    (canTransfer evm.stateDB caller.address value).1 = true →
    addr = createAddress env.crypto caller.address (evm.stateDB.getNonce caller.address) →
    evm.stateDB.getCode addr ≠ [] →
    ∃ r, evm.create env run caller code gas value = .ok r ∧
      r.err = some .contractAddressCollision ∧
      (r.evm.stateDB.account addr).code = (evm.stateDB.account addr).code ∧
      (r.evm.stateDB.account addr).storage = (evm.stateDB.account addr).storage

/-- The second of two creations by one account comes after the nonce was raised. -/
theorem Creates.apart {db : StateDB} {ops pre pre' : List StateOp} {a : Address}
    (h : Creates db ops pre a) (h' : Creates db ops pre' a) (hlen : pre.length < pre'.length) :
    pre ++ [.getBalance a, .setNonce a ((db.replay pre).getNonce a + 1)] <+: pre' := by
  have hops := h.ops
  have hops' := h'.ops
  have hraise : ops[pre.length + 1]? = some (.setNonce a ((db.replay pre).getNonce a + 1)) := by
    obtain ⟨rest, rfl⟩ := hops
    simp
  have hread : ops[pre'.length]? = some (.getBalance a) := by
    obtain ⟨rest, rfl⟩ := hops'
    simp
  have hne : pre'.length ≠ pre.length + 1 := by
    intro heq
    rw [heq, hraise] at hread
    cases hread
  refine List.prefix_of_prefix_length_le hops ((List.prefix_append ..).trans hops') ?_
  simp only [List.length_append, List.length_cons, List.length_nil]
  omega

/-- It therefore finds a larger nonce. -/
theorem Creates.nonce_lt {db : StateDB} {ops pre pre' : List StateOp} {a : Address}
    (hlast : Lasting db ops) (hcare : Along StateDB.perform (fun db op => op.Careful db) db ops)
    (h : Creates db ops pre a) (h' : Creates db ops pre' a) (hlen : pre.length < pre'.length) :
    (db.replay pre).getNonce a < (db.replay pre').getNonce a := by
  have hpre : pre' <+: ops := (List.prefix_append ..).trans h'.ops
  obtain ⟨mid, rfl⟩ := h.apart h' hlen
  obtain ⟨rest, rfl⟩ := hpre
  have hleft := hlast pre (by simp) a
  have hnonce : (db.replay (pre ++ [.getBalance a,
      .setNonce a ((db.replay pre).getNonce a + 1)])).getNonce a = (db.replay pre).getNonce a + 1 := by
    rw [replay_append]
    simp [replay, getNonce, account_perform, StateOp.target, StateOp.update]
  have hmid := (along_append.mp (along_append.mp hcare).1).2
  rw [← replay] at hmid
  have hle := nonce_replay (a := a) hmid (by
    rw [hnonce]
    exact (lt_add_one_of_noncesLeft hleft).2)
  rw [hnonce, ← replay_append] at hle
  exact UInt64.lt_of_lt_of_le (lt_add_one_of_noncesLeft hleft).1 hle

theorem collision_of_code {env : Env} {run : RunFn} {evm : Evm} {caller : ContractRef}
    {code : Bytes} {gas : UInt64} {value : Int} {addr : Address} (hleft : evm.stateDB.NoncesLeft)
    (hnum : evm.stateDB.Numbered) (hdepth : evm.depth ≤ callCreateDepth)
    (hcan : (canTransfer evm.stateDB caller.address value).1 = true)
    (haddr : addr = createAddress env.crypto caller.address (evm.stateDB.getNonce caller.address))
    (hcode : evm.stateDB.getCode addr ≠ []) :
    ∃ r, evm.create env run caller code gas value = .ok r ∧
      r.err = some .contractAddressCollision ∧
      (r.evm.stateDB.account addr).code = (evm.stateDB.account addr).code ∧
      (r.evm.stateDB.account addr).storage = (evm.stateDB.account addr).storage := by
  let db := (canTransfer evm.stateDB caller.address value).2.raiseNonce caller.address
  have hdb : db = evm.stateDB.replay [.getBalance caller.address,
      .setNonce caller.address (evm.stateDB.getNonce caller.address + 1)] := raiseNonce_ops ..
  have hnonce : db.getNonce addr ≠ 0 := by
    rw [hdb]
    by_cases ha : addr = caller.address
    · rw [ha]
      simpa [replay, getNonce, account_perform, StateOp.target, StateOp.update] using
        (lt_add_one_of_noncesLeft (hleft caller.address)).2
    · simpa [replay, getNonce, account_perform, StateOp.target, StateOp.update, Ne.symm ha] using
        hnum addr hcode
  have htaken : collides env db addr = true := by
    simp [collides, hnonce]
  have hread : (canTransfer evm.stateDB caller.address value).2.getNonce caller.address =
      evm.stateDB.getNonce caller.address := getNonce_getBalance ..
  have hresult : evm.create env run caller code gas value = .ok ⟨⟨[], 0,
      some .contractAddressCollision, { evm with stateDB := db }, caller.jumpdests⟩, 0⟩ := by
    unfold Evm.create
    simp only [if_neg (Nat.not_lt.mpr hdepth), hcan, Bool.not_true, Bool.false_eq_true, if_false,
      hread, ← haddr, htaken, if_true, db]
  refine ⟨_, hresult, rfl, ?_⟩
  simp only [hdb, replay, List.foldl_cons, List.foldl_nil, account_perform, StateOp.target,
    Option.some.injEq]
  by_cases ha : caller.address = addr <;> simp [ha, StateOp.update]

/-- Creation never clobbers, whatever calls and creations were made since the set-up, nested and
failing ones included, as long as no nonce runs out. -/
theorem creation_never_clobbers {setUp : List StateOp} {db : StateDB}
    (hset : ∀ op ∈ setUp, op.SetsUp) (hruns : Runs (StateDB.new.replay setUp) db)
    (hlast : Lasting (StateDB.new.replay setUp) ((StateDB.new.replay setUp).opsTo db)) :
    NeverClobbers (StateDB.new.replay setUp) db := by
  generalize hdb₀ : StateDB.new.replay setUp = db₀ at hruns hlast ⊢
  have hnum₀ : db₀.Numbered := fun a ha => absurd (by rw [← hdb₀]; exact setUp_code hset a) ha
  have hcare := hruns.careful.2 hlast
  have hnum : ∀ pre, pre <+: db₀.opsTo db → (db₀.replay pre).Numbered := by
    rintro pre ⟨rest, hrest⟩
    rw [← hrest] at hcare
    exact ((along_append.mp hcare).1.invariant hnum₀ fun _ _ h hop => StateDB.Numbered.perform h hop).1
  constructor
  case code =>
    intro pre hpre a ha
    have hne : ((db₀.replay pre).getNonce a).toNat ≠ 0 := fun h =>
      hnum pre hpre a ha (UInt64.toNat_inj.mp h)
    exact UInt64.le_iff_toNat_le.mpr (Nat.one_le_iff_ne_zero.mpr hne)
  case nonce =>
    rintro pre mid ⟨rest, hrest⟩ a ha
    rw [← hrest] at hcare
    rw [replay_append]
    exact nonce_replay (along_append.mp (along_append.mp hcare).1).2 ha
  case creator =>
    intro pre pre' a h h' hnonce
    have hbefore : ∀ {pre}, Creates db₀ (db₀.opsTo db) pre a → pre <+: db₀.opsTo db :=
      fun h => (List.prefix_append ..).trans h.ops
    obtain hlt | heq | hgt := Nat.lt_trichotomy pre.length pre'.length
    · exact absurd hnonce (UInt64.ne_of_lt (h.nonce_lt hlast hcare h' hlt))
    · exact (List.prefix_of_prefix_length_le (hbefore h) (hbefore h') heq.le).eq_of_length heq
    · exact absurd hnonce.symm (UInt64.ne_of_lt (h'.nonce_lt hlast hcare h hgt))
  case collision =>
    intro pre hpre env run evm caller code gas value addr hdb hdepth hcan haddr hcode
    have hleft := hlast pre hpre
    have hnum := hnum pre hpre
    rw [← hdb] at hleft hnum
    exact collision_of_code hleft hnum hdepth hcan haddr hcode

/-- The nonces that a history sets leave room. -/
def StateOp.leavesNonces : StateOp → Bool
  | setNonce _ n => n.toNat < 2 ^ 64 - 1
  | _ => true

theorem lasting_of_leavesNonces {db : StateDB} {ops : List StateOp} (h : db.NoncesLeft)
    (hops : ops.all StateOp.leavesNonces = true) : Lasting db ops := by
  have hstep : ∀ {db : StateDB} {op : StateOp}, db.NoncesLeft → op.leavesNonces = true →
      (db.perform op).NoncesLeft := by
    intro db op h hop a
    rw [getNonce, account_perform]
    split_ifs
    · cases op with
      | setNonce x n => exact of_decide_eq_true hop
      | createAccount x => exact Nat.zero_lt_of_lt (h a)
      | subBalance x v =>
        simp only [StateOp.update]
        split_ifs <;> exact h a
      | _ => exact h a
    · exact h a
  intro pre hpre
  have hall : ∀ op ∈ pre, op.leavesNonces = true := fun op hop =>
    List.all_eq_true.mp hops op (hpre.subset hop)
  clear hops hpre
  induction pre generalizing db with
  | nil => exact h
  | cons op pre ih =>
    exact ih (hstep h (hall op (by simp))) fun op' hop' => hall op' (by simp [hop'])

theorem noncesLeft_new : StateDB.new.NoncesLeft := by
  intro _
  change (0 : UInt64).toNat < 2 ^ 64 - 1
  decide

/-- The account that deploys. -/
def deployer : List StateOp := [.addBalance 7 100, .setNonce 7 1]

/-- Init code that returns one byte of code. -/
def deployOnce (db : StateDB) : Outcome Evm CreateResult :=
  (Entry.create [0x60, 1, 0x60, 0, 0xf3] 0).start recursiveEnv 10 (Evm.new db) (.account 7) 100000

/-- The second deployment goes to the address of the first, because the stand-in has one digest. -/
def deployTwice : Outcome Evm CreateResult :=
  (deployOnce (StateDB.new.replay deployer)).bind fun r => deployOnce r.evm.stateDB

theorem deployTwice_collides : deployTwice.Returns fun r =>
    r.err = some .contractAddressCollision ∧ r.evm.stateDB.getCode 0 = [0] ∧
    ((StateDB.new.replay deployer).opsTo r.evm.stateDB).all StateOp.leavesNonces = true := by
  decide +kernel

theorem creation_never_clobbers_deployTwice : ∃ r, deployTwice = .ok r ∧
    r.err = some .contractAddressCollision ∧
    NeverClobbers (StateDB.new.replay deployer) r.evm.stateDB := by
  obtain ⟨r, hr, herr, -, hops⟩ := deployTwice_collides.exists
  obtain ⟨r', hr', h⟩ := Outcome.bind_eq_ok.mp hr
  have hfirst : Runs (StateDB.new.replay deployer) r'.evm.stateDB := by
    refine .run ?_ rfl hr'
    exact .start
  have hruns : Runs (StateDB.new.replay deployer) r.evm.stateDB := by
    refine .run ?_ rfl h
    exact hfirst
  have hset : ∀ op ∈ deployer, op.SetsUp := by
    intro op hop
    simp only [deployer, List.mem_cons, List.not_mem_nil, or_false] at hop
    obtain rfl | rfl := hop <;> trivial
  have hleft : (StateDB.new.replay deployer).NoncesLeft :=
    lasting_of_leavesNonces noncesLeft_new (by decide) _ List.prefix_rfl
  exact ⟨r, hr, herr, creation_never_clobbers hset hruns (lasting_of_leavesNonces hleft hops)⟩

end MiniEvm
